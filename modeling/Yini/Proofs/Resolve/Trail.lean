import Yini.Proofs.Merge
import Yini.Proofs.Resolve.Whole

/-!
Where a run of the resolver stops when it fails.

The nodes that are open at a fault were opened one after the other, each of them led to by the one
before (`Document.Trail`).  For the rest of the document the invariant still holds there, and two more
things that it does not mention: the order of names, and all of a section but its contents (`Framed`).
`Stops` says this of a step.  It holds of every call of the resolver (`stops_all`), by the induction
that shows that they meet the invariant.
-/

namespace Yini

/-! ## The way to an open node -/

namespace Idle

/-- The idle names once a node is being resolved. -/
def openNode (i : Idle) : Node → Idle
  | .ofSection name => i.openSection name
  | .ofMacro name => i.openMacro name

/-- Whether a node is idle. -/
def Has (i : Idle) : Node → Prop
  | .ofSection name => name ∈ i.sections
  | .ofMacro name => name ∈ i.macros

variable {i : Idle} {n m : Node}

/-- What is idle when a node is open was idle before. -/
theorem has_of_has_openNode (h : (i.openNode n).Has m) : i.Has m := by
  cases n <;> cases m <;> first | exact List.mem_of_mem_erase h | exact h

/-- The node that is opened is not idle any more, for no name is there twice. -/
theorem not_has_openNode (hs : i.sections.Nodup) (hm : i.macros.Nodup) : ¬(i.openNode n).Has n := by
  cases n with
  | ofSection name => exact hs.not_mem_erase
  | ofMacro name => exact hm.not_mem_erase

theorem has_openNode_of_ne (h : i.Has m) (hne : m ≠ n) : (i.openNode n).Has m := by
  cases n with
  | ofSection name =>
    cases m with
    | ofSection other => exact (List.mem_erase_of_ne fun heq => hne (by rw [heq])).mpr h
    | ofMacro other => exact h
  | ofMacro name =>
    cases m with
    | ofSection other => exact h
    | ofMacro other => exact (List.mem_erase_of_ne fun heq => hne (by rw [heq])).mpr h

end Idle

/-- Nodes that are opened one after the other: the first is one of `starts`, each of the others is led
    to by the one before it, and all were idle until then.  With `i` idle before, `j` is idle
    afterwards. -/
inductive Document.Trail (d : Document) : Idle → (Node → Prop) → List Node → Idle → Prop where
  | nil {i : Idle} {starts : Node → Prop} : Trail d i starts [] i
  | cons {i j : Idle} {starts : Node → Prop} {n : Node} {path : List Node} (hstart : starts n)
    (hidle : i.Has n) (hrest : Trail d (i.openNode n) (d.Edge n) path j) :
    Trail d i starts (n :: path) j

namespace Document.Trail

variable {d : Document} {i j : Idle} {starts starts' : Node → Prop} {path : List Node} {n : Node}

theorem mono (h : d.Trail i starts path j) (hsub : ∀ n, starts n → starts' n) :
    d.Trail i starts' path j := by
  cases h with
  | nil => exact .nil
  | cons hstart hidle hrest => exact .cons (hsub _ hstart) hidle hrest

/-- The first node of a trail is one that it may start from. -/
theorem start (h : d.Trail i starts path j) : ∀ n ∈ path.head?, starts n := by
  cases h with
  | nil => exact fun _ hn => by cases hn
  | cons hstart => exact fun _ hn => by cases hn; exact hstart

/-- **Each node of a trail leads to the next one.** -/
theorem isChain (h : d.Trail i starts path j) : path.IsChain d.Edge := by
  induction h with
  | nil => exact .nil
  | cons _ _ hrest ih =>
    cases hrest with
    | nil => exact .singleton _
    | cons hstart => exact .cons_cons hstart ih

/-- **The nodes of a trail were idle** when it began. -/
theorem has_of_mem (h : d.Trail i starts path j) (hn : n ∈ path) : i.Has n := by
  induction h with
  | nil => cases hn
  | cons _ hidle _ ih =>
    rcases List.mem_cons.mp hn with rfl | hn
    · exact hidle
    · exact Idle.has_of_has_openNode (ih hn)

/-- No node is opened twice. -/
theorem nodup (h : d.Trail i starts path j) (hs : i.sections.Nodup) (hm : i.macros.Nodup) :
    path.Nodup := by
  induction h with
  | nil => exact List.nodup_nil
  | @cons i j starts n path _ _ hrest ih =>
    -- all nodes after `n` were idle when it was open already
    refine List.nodup_cons.mpr ⟨fun hn => ?_, ?_⟩
    · exact Idle.not_has_openNode hs hm (hrest.has_of_mem hn)
    · cases n with
      | ofSection name => exact ih (hs.erase name) hm
      | ofMacro name => exact ih hs (hm.erase name)

/-- What is not on the way stays idle. -/
theorem has_of_not_mem (h : d.Trail i starts path j) (hn : i.Has n) (hpath : n ∉ path) : j.Has n := by
  induction h with
  | nil => exact hn
  | cons _ _ _ ih =>
    obtain ⟨hne, hpath⟩ := not_or.mp (List.mem_cons.not.mp hpath)
    exact ih (Idle.has_openNode_of_ne hn hne) hpath

end Document.Trail

/-! ## What is kept beside the invariant -/

/-- A section without its contents. -/
def Section.hull (s : Section) : Section := { s with properties := ∅, registry := [] }

/-- To note a macro changes nothing but the contents of `[#define]`. -/
theorem Section.hull_note (name : String) (v : Value) (s : Section) :
    (s.note name v).hull = s.hull := by
  unfold note
  split <;> rfl

/-- To note a macro adds no name to `[#define]`. -/
theorem Section.keys_note (name : String) (v : Value) (s : Section) :
    (s.note name v).properties.keys = s.properties.keys := by
  unfold note
  split
  next h => exact Table.keys_insert_of_mem (Table.contains_iff.mp h)
  next => rfl

namespace Progress

variable {α β : Type} {d : Document} {p : Providers} {i j k : Idle} {q q' q'' : Progress}

/-- Sections and macros keep their order, sections keep all but their contents, and those that wait
    keep the order of their properties as well. -/
structure Framed (d : Document) (j : Idle) (q : Progress) : Prop where
  hulls : q.document.sections.mapValues Section.hull = d.sections.mapValues Section.hull
  macroNames : q.document.macros.keys = d.macros.keys
  propertyNames : ∀ n ∈ j.sections, n ∉ q.doneSections → ∀ s t, d.sections.get? n = some s →
    q.document.sections.get? n = some t → t.properties.keys = s.properties.keys

theorem framed_start (d : Document) : Framed d (.all d) ⟨d, [], []⟩ where
  hulls := rfl
  macroNames := rfl
  propertyNames n _ _ s t hs ht := by rw [Option.some.inj (hs.symm.trans ht)]

theorem Framed.openNode (h : Framed d i q) (n : Node) : Framed d (i.openNode n) q where
  hulls := h.hulls
  macroNames := h.macroNames
  propertyNames m hm := h.propertyNames m (Idle.has_of_has_openNode (m := .ofSection m) hm)

theorem Framed.withSchemas (h : Framed d i q) (schemas : Table Section) :
    Framed d i (q.withSchemas schemas) :=
  ⟨h.hulls, h.macroNames, h.propertyNames⟩

/-- An open section may be changed, as long as it is only its contents that change. -/
theorem Framed.alter (h : Framed d j q) {name : String} (hopen : name ∉ j.sections)
    {f : Section → Section} (hf : ∀ t, (f t).hull = t.hull) : Framed d j (q.alter name f) where
  hulls := (Table.mapValues_modify hf _ _).trans h.hulls
  macroNames := h.macroNames
  propertyNames n hn hwait s t hs ht := by
    rw [get?_alter_of_ne q (ne_of_mem_of_not_mem hn hopen).symm] at ht
    exact h.propertyNames n hn hwait s t hs ht

/-- An open section may be closed. -/
theorem Framed.close {name : String} (h : Framed d (i.openSection name) q)
    (properties : Table Value) (registry : List Value) :
    Framed d i (q.close name properties registry) where
  hulls := by
    have hsame : ∀ t : Section, ({ t with properties, registry } : Section).hull = t.hull :=
      fun _ => rfl
    exact (Table.mapValues_modify hsame _ _).trans h.hulls
  macroNames := h.macroNames
  propertyNames n hn hwait s t hs ht := by
    obtain ⟨hne, hwait⟩ := List.ne_and_not_mem_of_not_mem_cons hwait
    refine h.propertyNames n ((List.mem_erase_of_ne hne).mpr hn) hwait s t hs ?_
    rwa [← get?_alter_of_ne q hne.symm ({ · with properties, registry })]

/-- A macro may be noted. -/
theorem Framed.note {name : String} (h : Framed d (i.openMacro name) q)
    (hname : name ∈ q.document.macros.keys) (v : Value) : Framed d i (q.note name v) where
  hulls := (Table.mapValues_modify (Section.hull_note name v) _ _).trans h.hulls
  macroNames := (Table.keys_insert_of_mem hname).trans h.macroNames
  propertyNames n hn hwait s t' hs ht' := by
    rw [get?_note_sections] at ht'
    obtain ⟨t, ht, rfl⟩ := Option.map_eq_some_iff.mp ht'
    rw [← h.propertyNames n hn hwait s t hs ht]
    split
    · exact Section.keys_note name v t
    · rfl

/-! ## Steps that stop -/

/-- What is there when a step that started in `q` has failed in `q'`: the nodes of `path` are open, and
    `k` is idle. -/
structure Stopped (d : Document) (p : Providers) (i : Idle) (starts : Node → Prop) (q q' : Progress)
    (path : List Node) (k : Idle) : Prop where
  trail : d.Trail i starts path k
  sound : Sound d p k q'
  framed : Framed d k q'
  schemas : q'.document.schemas = q.document.schemas
  done : ∀ n, q.Done n → q'.Done n

/-- A step that starts in `q` keeps the frame if it succeeds, with `j` idle, and otherwise it stops on
    a trail from `starts`. -/
def Stops (d : Document) (p : Providers) (i j : Idle) (starts : Node → Prop) (q : Progress)
    (x : Resolve α) : Prop :=
  match x q with
  | .ok _ q' => Framed d j q'
  | .error _ q' => ∃ path k, Stopped d p i starts q q' path k

variable {starts starts' : Node → Prop} {x y : Resolve α}

/-- A step that succeeds has only to keep the frame. -/
theorem Stops.of_ok {a : α} (h : x q = .ok a q') (hf : Framed d j q') :
    Stops d p i j starts q x := by
  rw [Stops, h]
  exact hf

/-- A step that fails at once. -/
theorem Stops.of_error {f : Fault} (h : x q = .error f q) (hs : Sound d p i q) (hf : Framed d i q) :
    Stops d p i j starts q x := by
  rw [Stops, h]
  exact ⟨[], i, .nil, hs, hf, rfl, fun _ h => h⟩

theorem Stops.pure {a : α} (hf : Framed d j q) : Stops d p i j starts q (pure a) := .of_ok rfl hf

theorem Stops.congr (h : x q = y q) (hy : Stops d p i j starts q y) : Stops d p i j starts q x := by
  unfold Stops at hy ⊢
  rwa [h]

theorem Stops.mono (h : Stops d p i j starts q x) (hsub : ∀ n, starts n → starts' n) :
    Stops d p i j starts' q x := by
  unfold Stops at h ⊢
  cases hrun : x q with
  | ok a q' => rwa [hrun] at h
  | error f q' =>
    rw [hrun] at h
    obtain ⟨path, k, hstopped⟩ := h
    exact ⟨path, k, { hstopped with trail := hstopped.trail.mono hsub }⟩

/-- A step after a step.  If the second one fails, what the first one has done stays. -/
theorem Stops.bind {i' : Idle} {f : α → Resolve β} {post : α → Progress → Prop}
    (hm : Meets d p i' j q x post) (hx : Stops d p i j starts q x)
    (hf : ∀ a q', Sound d p j q' → Advance d i' q q' → post a q' → Framed d j q' →
      Stops d p i k starts q' (f a)) : Stops d p i k starts q (x >>= f) := by
  unfold Meets at hm
  unfold Stops at hx
  cases hrun : x q with
  | error g r =>
    rw [hrun] at hx
    rw [Stops, bind_eq_error.mpr (.inl hrun)]
    exact hx
  | ok a r =>
    -- the second step starts where the first one has ended, and so does what it says of its fault
    rw [hrun] at hm hx
    obtain ⟨hs, ha, hp⟩ := hm
    have hrest := hf a r hs ha hp hx
    unfold Stops at hrest ⊢
    rw [bind_of_ok hrun]
    cases hrun' : f a r with
    | ok b t => rwa [hrun'] at hrest
    | error g t =>
      rw [hrun'] at hrest
      obtain ⟨path, k, hstopped⟩ := hrest
      exact ⟨path, k, hstopped.trail, hstopped.sound, hstopped.framed,
        hstopped.schemas.trans ha.schemas, fun n hn => hstopped.done n (ha.keeps.done hn)⟩

/-- A step that works on a node that has been opened. -/
theorem Stops.opened {n : Node} (h : Stops d p (i.openNode n) j (d.Edge n) q x) (hstart : starts n)
    (hidle : i.Has n) : Stops d p i j starts q x := by
  unfold Stops at h ⊢
  cases hrun : x q with
  | ok a q' => rwa [hrun] at h
  | error f q' =>
    rw [hrun] at h
    obtain ⟨path, k, hstopped⟩ := h
    exact ⟨n :: path, k, { hstopped with trail := .cons hstart hidle hstopped.trail }⟩

end Progress

end Yini
