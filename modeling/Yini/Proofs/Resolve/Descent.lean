import Yini.Proofs.Resolve.Whole

/-!
Resolving comes to an end.

The resolver hands down which names are idle, and that is why it ends.  Here is the same recursion
without this measure: the names that are being resolved are a part of the state, they are put in and
taken out again, and nothing says that the calls ever return.  The recursion is cut off where calls
nest more deeply than a given number.

For every document there is a depth from which on it is never cut off, and it does exactly what the
resolver does (`descend_ends`).  The induction is on the idle names, and within them on the value that
is walked through: the names that are not open are the idle ones (`Matches`).
-/

namespace Yini

/-! ## The recursion without a measure -/

/-- How far resolving has come, and which sections and macros are being resolved. -/
structure Calls where
  progress : Progress
  openSections : List String := []
  openMacros : List String := []

/-- Why the recursion has stopped: for a fault, or because it has been cut off. -/
inductive Halt where
  | fault (f : Fault)
  | tooDeep

/-- A step of the recursion. -/
abbrev Descend (α : Type) : Type := EStateM Halt Calls α

namespace Descend

variable {α : Type}

/-- A step of resolving that calls nothing. -/
def step (x : Resolve α) : Descend α := fun c =>
  match x c.progress with
  | .ok a q => .ok a { c with progress := q }
  | .error f q => .error (.fault f) { c with progress := q }

/-- Resolves a parent of a section by `call`, and gives the section its properties. -/
def parent (call : String → Descend Unit) (name : String) (span : Span) (parent : String) :
    Descend Unit := do
  if !(← get).progress.document.sections.contains parent then
    step (throw (.compile (.parentMissing parent name) (some span)))
  else
    call parent
    step (changeDocument (·.inherit name parent))

/-- The values of fields, each resolved by `call`. -/
def fields (call : Value → Descend Value) (fs : List (String × Value)) :
    Descend (List (String × Value)) :=
  fs.mapM fun e => do return (e.1, ← call e.2)

/-- The values of a table, each resolved by `call`. -/
def table (call : Value → Descend Value) (t : Table Value) : Descend (Table Value) := do
  return .ofList (← fields call t.entries)

/-- A value that may be absent, resolved by `call`. -/
def option (call : Value → Descend Value) : Option Value → Descend (Option Value)
  | none => return none
  | some v => do return some (← call v)

/-- Resolves what a section holds, each value by `call`. -/
def contents (call : Value → Descend Value) (name : String) : Descend Unit := do
  let (properties, registry) ← step (takeContents name)
  let properties ← table call properties
  let registry ← registry.mapM call
  step (putContents name properties registry)

/-- Carries out a step between two changes of what is open. -/
def between (enter leave : Calls → Calls) (x : Descend α) : Descend α := do
  modify enter
  let a ← x
  modify leave
  return a

/-- Carries out a step while a section is open. -/
def whileSection (name : String) : Descend α → Descend α :=
  between (fun c => { c with openSections := name :: c.openSections })
    fun c => { c with openSections := c.openSections.erase name }

/-- Carries out a step while a macro is open. -/
def whileMacro (name : String) : Descend α → Descend α :=
  between (fun c => { c with openMacros := name :: c.openMacros })
    fun c => { c with openMacros := c.openMacros.erase name }

mutual

/-- Resolves a section, with calls nested at most so deeply. -/
def resolveSection (p : Providers) : Nat → String → Descend Unit
  | 0, _ => throw .tooDeep
  | n + 1, name => do
    let c ← get
    if name ∈ c.progress.doneSections then return ()
    else match c.progress.document.sections.get? name with
      | none => step (throw (.compile (.sectionMissing name) none))
      | some s =>
        if name ∈ c.openSections then
          step (throw (.compile (.inheritanceCycle name) (some s.span)))
        else
          whileSection name do
            s.parents.forM (parent (resolveSection p n) name s.span)
            contents (resolveValue p n) name
          step (modify fun q => { q with doneSections := name :: q.doneSections })
termination_by structural n => n

/-- The value of an expression, with calls nested at most so deeply. -/
def resolveValue (p : Providers) : Nat → Value → Descend Value
  | 0, _ => throw .tooDeep
  | n + 1, .atom (.reference r) span => resolveReference p n r span
  | _ + 1, .atom a span => return .atom a span
  | n + 1, .sequence k items span => do return .sequence k (← items.mapM (resolveValue p n)) span
  | n + 1, .record k fs span => do return .record k (← fields (resolveValue p n) fs) span
  | n + 1, .binary l op r span => do
    let l ← resolveValue p n l
    let r ← resolveValue p n r
    match l.combine op r span with
    | .ok v => return v
    | .error fault => step (throw fault)
  | n + 1, .neg v span => do
    let v ← resolveValue p n v
    match v.opposite span with
    | .ok v => return v
    | .error fault => step (throw fault)
  | n + 1, .rule m d lo hi span => do
    let d ← option (resolveValue p n) d
    let lo ← option (resolveValue p n) lo
    let hi ← option (resolveValue p n) hi
    return .rule m d lo hi span
termination_by structural n => n

/-- The value that a reference stands for, with calls nested at most so deeply. -/
def resolveReference (p : Providers) : Nat → Reference → Span → Descend Value
  | 0, _, _ => throw .tooDeep
  | n + 1, r, span => do
    match r.kind with
    | .macroName => resolveMacro p n r.target span
    | .environment =>
      match p.environment r.target span with
      | .ok v => return v
      | .error fault => step (throw fault)
    | .localization => return p.localized r.target span
    | .crossSection =>
      match r.sectionKey? with
      | none => step (throw (.compile (.badTarget r.target) (some span)))
      | some (name, key) =>
        let c ← get
        if name ∈ c.openSections then
          step (throw (.compile (.referenceCycle name) (some span)))
        else if !c.progress.document.sections.contains name then
          step (throw (.compile (.targetMissing r.target) (some span)))
        else
          resolveSection p n name
          step (readProperty name key r.target span)
termination_by structural n => n

/-- The value of a macro, with calls nested at most so deeply. -/
def resolveMacro (p : Providers) : Nat → String → Span → Descend Value
  | 0, _, _ => throw .tooDeep
  | n + 1, name, span => do
    let c ← get
    match if name ∈ c.progress.doneMacros then c.progress.document.macros.get? name else none with
    | some v => return v.withSpan span
    | none =>
      if name ∈ c.openMacros then step (throw (.compile (.macroCycle name) (some span)))
      else match c.progress.document.macros.get? name with
        | none => step (throw (.compile (.macroMissing name) (some span)))
        | some e =>
          let v ← whileMacro name (resolveValue p n e)
          step (modify (·.note name v))
          return v.withSpan span
termination_by structural n => n

end

/-- A schema section with the values in its rules, each resolved by `call`. -/
def schema (call : Value → Descend Value) (s : Section) : Descend Section := do
  return { s with properties := ← table call s.properties }

/-- The macros and the sections without special meaning, with calls nested at most so deeply. -/
def resolveNodes (p : Providers) (n : Nat) (d : Document) : Descend Unit := do
  d.macros.keys.forM fun name => do
    let _ ← resolveMacro p n name .none
  (d.sections.keys.filter (!Section.isSpecialName ·)).forM (resolveSection p n)

/-- The schema sections, with calls nested at most so deeply. -/
def resolveSchemas (p : Providers) (n : Nat) : Descend Unit := do
  let schemas := (← get).progress.document.schemas
  step (changeDocument ({ · with schemas := ∅ }))
  let schemas ← schemas.entries.mapM fun e => do return (e.1, ← schema (resolveValue p n) e.2)
  step (changeDocument ({ · with schemas := .ofList schemas }))

/-- Resolves everything in the document of the state, with calls nested at most so deeply. -/
def resolveAll (p : Providers) (n : Nat) : Descend Unit := do
  step (changeDocument Document.gatherMacros)
  resolveNodes p n (← get).progress.document
  resolveSchemas p n

end Descend

/-- The document resolved, or the fault with the document as the fault left it; nothing if calls nest
    more deeply than `n`. -/
def Document.descend (p : Providers) (n : Nat) (d : Document) :
    Option (Except (Fault × Document) Document) :=
  match Descend.resolveAll p n { progress := ⟨d, [], []⟩ } with
  | .ok _ c => some (.ok c.progress.document)
  | .error (.fault f) c => some (.error (f, c.progress.document))
  | .error .tooDeep _ => none

/-! ## Names -/

/-- No name is lost or gained, and only macros that are there become done. -/
structure Progress.SameNames (q q' : Progress) : Prop where
  sections : ∀ n, q'.document.sections.contains n = q.document.sections.contains n
  macros : ∀ m, q'.document.macros.contains m = q.document.macros.contains m
  done : ∀ m ∈ q'.doneMacros, m ∈ q.doneMacros ∨ q.document.macros.contains m

namespace Progress.SameNames

variable {q : Progress} {name : String}

theorem refl (q : Progress) : SameNames q q := ⟨fun _ => rfl, fun _ => rfl, fun _ hm => .inl hm⟩

theorem alter (q : Progress) (name : String) (f : Section → Section) :
    SameNames q (q.alter name f) where
  sections n := by
    by_cases hn : name = n
    · subst hn
      rw [Table.contains, get?_alter_self, Option.isSome_map]
      rfl
    · rw [Table.contains, get?_alter_of_ne q hn]
      rfl
  macros _ := rfl
  done _ hm := .inl hm

/-- To note a macro that is there adds no name. -/
theorem note {v : Value} (h : q.document.macros.contains name) : SameNames q (q.note name v) where
  sections n := by
    rw [Table.contains, get?_note_sections, Option.isSome_map]
    rfl
  macros m := by
    show (q.document.macros.insert name v).contains m = _
    by_cases hm : name = m
    · subst hm
      rw [h, Table.contains, Table.get?_insert_self]
      rfl
    · rw [Table.contains, Table.get?_insert_of_ne _ hm]
      rfl
  done m hm := by
    rcases List.mem_cons.mp hm with rfl | hm
    · exact .inr h
    · exact .inl hm

/-- What the steps that call nothing do to the sections of a document. -/
theorem inherit {parent : String} {a : Unit} {q' : Progress}
    (h : changeDocument (·.inherit name parent) q = .ok a q') : SameNames q q' := by
  cases hu : q.document.sections.get? parent with
  | none =>
    have hsame : q.document.inherit name parent = q.document := by rw [Document.inherit, hu]
    have hrun : changeDocument (·.inherit name parent) q
        = .ok () { q with document := q.document.inherit name parent } := rfl
    rw [hrun, hsame] at h
    cases h
    exact refl q
  | some u =>
    rw [changeDocument_inherit hu] at h
    cases h
    exact alter q name _

/-- A section from which the contents are taken keeps its name. -/
theorem takeContents {a : Table Value × List Value} {q' : Progress}
    (h : takeContents name q = .ok a q') : SameNames q q' := by
  cases hs : q.document.sections.get? name with
  | none =>
    rw [Yini.takeContents, get_bind, hs] at h
    cases h
    exact refl q
  | some s =>
    rw [takeContents_of_declared hs] at h
    cases h
    exact alter q name _

theorem readProperty {key target : String} {span : Span} {v : Value} {q' : Progress}
    (h : readProperty name key target span q = .ok v q') : SameNames q q' := by
  cases hget : q.document.get? name key with
  | none =>
    rw [Yini.readProperty, get_bind, hget] at h
    cases h
  | some w =>
    rw [Yini.readProperty, get_bind, hget] at h
    cases h
    exact refl q

end Progress.SameNames

/-- The idle names are those that are there and not open. -/
structure Matches (i : Idle) (c : Calls) : Prop where
  nodupSections : i.sections.Nodup
  nodupMacros : i.macros.Nodup
  idleSection : ∀ n,
    n ∈ i.sections ↔ c.progress.document.sections.contains n ∧ n ∉ c.openSections
  idleMacro : ∀ m, m ∈ i.macros ↔ c.progress.document.macros.contains m ∧ m ∉ c.openMacros
  openSection : ∀ n ∈ c.openSections, c.progress.document.sections.contains n
  openMacro : ∀ m ∈ c.openMacros, c.progress.document.macros.contains m
  doneMacro : ∀ m ∈ c.progress.doneMacros, c.progress.document.macros.contains m

namespace Matches

variable {i : Idle} {c : Calls} {name : String}

/-- The names match as long as they stay the same. -/
theorem advance (h : Matches i c) {q : Progress} (hq : c.progress.SameNames q) :
    Matches i { c with progress := q } where
  nodupSections := h.nodupSections
  nodupMacros := h.nodupMacros
  idleSection n := by
    rw [h.idleSection n, hq.sections n]
  idleMacro m := by
    rw [h.idleMacro m, hq.macros m]
  openSection n hn := (hq.sections n).trans (h.openSection n hn)
  openMacro m hm := (hq.macros m).trans (h.openMacro m hm)
  doneMacro m hm := (hq.macros m).trans ((hq.done m hm).elim (h.doneMacro m) id)

/-- The names still match when an idle section is opened. -/
theorem enterSection (h : Matches i c) (hidle : name ∈ i.sections) :
    Matches (i.openSection name) { c with openSections := name :: c.openSections } where
  nodupSections := h.nodupSections.erase name
  nodupMacros := h.nodupMacros
  idleSection n := by
    show n ∈ i.sections.erase name ↔ _ ∧ n ∉ name :: c.openSections
    rw [h.nodupSections.mem_erase_iff, h.idleSection n, List.mem_cons, not_or]
    exact and_left_comm
  idleMacro := h.idleMacro
  openSection n hn := by
    rcases List.mem_cons.mp hn with rfl | hn
    · exact ((h.idleSection n).mp hidle).1
    · exact h.openSection n hn
  openMacro := h.openMacro
  doneMacro := h.doneMacro

/-- The names match again when the section is closed, whatever the calls in between have done. -/
theorem leaveSection (h : Matches i c) (hidle : name ∈ i.sections) {q : Progress}
    (hq : Matches (i.openSection name)
      { c with progress := q, openSections := name :: c.openSections }) :
    Matches i { c with progress := q } where
  nodupSections := h.nodupSections
  nodupMacros := h.nodupMacros
  idleSection n := by
    have hn := hq.idleSection n
    rw [Idle.openSection, h.nodupSections.mem_erase_iff, List.mem_cons, not_or] at hn
    by_cases hname : n = name
    · subst hname
      exact ⟨fun _ => ⟨hq.openSection n List.mem_cons_self, ((h.idleSection n).mp hidle).2⟩,
        fun _ => hidle⟩
    · simpa only [ne_eq, hname, not_false_eq_true, true_and] using hn
  idleMacro := hq.idleMacro
  openSection n hn := hq.openSection n (List.mem_cons_of_mem _ hn)
  openMacro := hq.openMacro
  doneMacro := hq.doneMacro

/-- The names still match when an idle macro is opened. -/
theorem enterMacro (h : Matches i c) (hidle : name ∈ i.macros) :
    Matches (i.openMacro name) { c with openMacros := name :: c.openMacros } where
  nodupSections := h.nodupSections
  nodupMacros := h.nodupMacros.erase name
  idleSection := h.idleSection
  idleMacro m := by
    show m ∈ i.macros.erase name ↔ _ ∧ m ∉ name :: c.openMacros
    rw [h.nodupMacros.mem_erase_iff, h.idleMacro m, List.mem_cons, not_or]
    exact and_left_comm
  openSection := h.openSection
  openMacro m hm := by
    rcases List.mem_cons.mp hm with rfl | hm
    · exact ((h.idleMacro m).mp hidle).1
    · exact h.openMacro m hm
  doneMacro := h.doneMacro

/-- The names match again when the macro is closed. -/
theorem leaveMacro (h : Matches i c) (hidle : name ∈ i.macros) {q : Progress}
    (hq : Matches (i.openMacro name) { c with progress := q, openMacros := name :: c.openMacros }) :
    Matches i { c with progress := q } where
  nodupSections := h.nodupSections
  nodupMacros := h.nodupMacros
  idleSection := hq.idleSection
  idleMacro m := by
    have hm := hq.idleMacro m
    rw [Idle.openMacro, h.nodupMacros.mem_erase_iff, List.mem_cons, not_or] at hm
    by_cases hname : m = name
    · subst hname
      exact ⟨fun _ => ⟨hq.openMacro m List.mem_cons_self, ((h.idleMacro m).mp hidle).2⟩,
        fun _ => hidle⟩
    · simpa only [ne_eq, hname, not_false_eq_true, true_and] using hm
  openSection := hq.openSection
  openMacro m hm := hq.openMacro m (List.mem_cons_of_mem _ hm)
  doneMacro := hq.doneMacro

end Matches

/-! ## Coming to an end -/

variable {α β : Type} {i : Idle} {c : Calls} {p : Providers} {name : String}

/-- The step `y` does what the step `x` of the resolver does.  Only a fault may leave names open. -/
def Agrees (i : Idle) (c : Calls) (x : Resolve α) (y : Descend α) : Prop :=
  match x c.progress with
  | .ok a q => y c = .ok a { c with progress := q } ∧ Matches i { c with progress := q }
  | .error f q => ∃ c', y c = .error (.fault f) c' ∧ c'.progress = q

/-- From some depth on, the recursion `y` does what the step `x` of the resolver does. -/
def EndsAt (i : Idle) (c : Calls) (x : Resolve α) (y : Nat → Descend α) : Prop :=
  ∃ n, ∀ m, n ≤ m → Agrees i c x (y m)

/-- The recursion comes to an end in every state whose names match. -/
def Ends (i : Idle) (x : Resolve α) (y : Nat → Descend α) : Prop :=
  ∀ c, Matches i c → EndsAt i c x y

/-- To agree where the resolver succeeds is to give the same and to leave no name open. -/
theorem Agrees.of_ok {x : Resolve α} {y : Descend α} {a : α} {q : Progress}
    (hx : x c.progress = .ok a q) (hy : y c = .ok a { c with progress := q })
    (hm : Matches i { c with progress := q }) : Agrees i c x y := by
  rw [Agrees, hx]
  exact ⟨hy, hm⟩

/-- To agree where the resolver fails is to fail in the same way, with whatever is open. -/
theorem Agrees.of_error {x : Resolve α} {y : Descend α} {f : Fault} {q : Progress} {c' : Calls}
    (hx : x c.progress = .error f q) (hy : y c = .error (.fault f) c') (hq : c'.progress = q) :
    Agrees i c x y := by
  rw [Agrees, hx]
  exact ⟨c', hy, hq⟩

/-- A single step of the resolver agrees with itself, if it adds no names and takes none away. -/
theorem Agrees.step (h : Matches i c) {x : Resolve α}
    (hx : ∀ a q, x c.progress = .ok a q → c.progress.SameNames q) :
    Agrees i c x (Descend.step x) := by
  cases hrun : x c.progress with
  | ok a q => exact .of_ok hrun (by rw [Descend.step, hrun]) (h.advance (hx a q hrun))
  | error f q => exact .of_error hrun (by rw [Descend.step, hrun]) rfl

theorem EndsAt.step (h : Matches i c) {x : Resolve α}
    (hx : ∀ a q, x c.progress = .ok a q → c.progress.SameNames q) :
    EndsAt i c x fun _ => Descend.step x :=
  ⟨0, fun _ _ => .step h hx⟩

theorem EndsAt.throw (h : Matches i c) (f : Fault) :
    EndsAt i c (throw f : Resolve α) fun _ => Descend.step (throw f) :=
  .step h fun _ _ hrun => by cases hrun

theorem EndsAt.pure (h : Matches i c) (a : α) : EndsAt i c (pure a) fun _ => pure a :=
  ⟨0, fun _ _ => .of_ok rfl rfl h⟩

/-- The recursion in other words. -/
theorem EndsAt.congr {x x' : Resolve α} {y y' : Nat → Descend α}
    (hx : x c.progress = x' c.progress) (hy : ∀ m, y m c = y' m c) (h : EndsAt i c x' y') :
    EndsAt i c x y := by
  obtain ⟨n, hn⟩ := h
  refine ⟨n, fun m hm => ?_⟩
  rw [Agrees, hx, hy]
  exact hn m hm

/-- A call takes one level. -/
theorem EndsAt.call {x : Resolve α} {y : Nat → Descend α} (h : EndsAt i c x fun m => y (m + 1)) :
    EndsAt i c x y := by
  obtain ⟨n, hn⟩ := h
  refine ⟨n + 1, fun m hm => ?_⟩
  obtain ⟨m, rfl⟩ : ∃ k, m = k + 1 := ⟨m - 1, by omega⟩
  exact hn m (by omega)

/-- A step after a step: what is deep enough for both is deep enough. -/
theorem EndsAt.bind {x : Resolve α} {f : α → Resolve β} {y : Nat → Descend α}
    {g : Nat → α → Descend β} (h : EndsAt i c x y)
    (hf : ∀ a q, Matches i { c with progress := q } →
      EndsAt i { c with progress := q } (f a) fun m => g m a) :
    EndsAt i c (x >>= f) fun m => y m >>= g m := by
  obtain ⟨n, hn⟩ := h
  cases hrun : x c.progress with
  | error e q =>
    refine ⟨n, fun m hm => ?_⟩
    have hstep := hn m hm
    rw [Agrees, hrun] at hstep
    obtain ⟨c', hy, hq⟩ := hstep
    exact .of_error (bind_eq_error.mpr (.inl hrun)) (bind_eq_error.mpr (.inl hy)) hq
  | ok a q =>
    have hfirst := hn n (Nat.le_refl n)
    rw [Agrees, hrun] at hfirst
    obtain ⟨k, hk⟩ := hf a q hfirst.2
    refine ⟨max n k, fun m hm => ?_⟩
    have hstep := hn m (Nat.le_trans (Nat.le_max_left n k) hm)
    have hrest := hk m (Nat.le_trans (Nat.le_max_right n k) hm)
    rw [Agrees, hrun] at hstep
    unfold Agrees
    rw [bind_of_ok hrun]
    show match f a q with
      | .ok b r => (y m >>= g m) c = .ok b { c with progress := r } ∧ _
      | .error e r => ∃ c', (y m >>= g m) c = .error (.fault e) c' ∧ _
    rw [bind_of_ok hstep.1]
    exact hrest

/-- A step between two changes of what is open, with other names idle. -/
theorem EndsAt.between {j : Idle} {enter leave : Calls → Calls} {x : Resolve α}
    {y : Nat → Descend α} (hm : Matches j (enter c)) (hprogress : (enter c).progress = c.progress)
    (hleave : ∀ q, leave { enter c with progress := q } = { c with progress := q })
    (hback : ∀ q, Matches j { enter c with progress := q } → Matches i { c with progress := q })
    (h : Ends j x y) : EndsAt i c x fun m => Descend.between enter leave (y m) := by
  obtain ⟨n, hn⟩ := h _ hm
  refine ⟨n, fun m hle => ?_⟩
  have hstep := hn m hle
  cases hrun : x c.progress with
  | error f q =>
    rw [Agrees, hprogress, hrun] at hstep
    obtain ⟨c', hy, hq⟩ := hstep
    exact .of_error hrun (bind_eq_error.mpr (.inr ⟨(), _, rfl, bind_eq_error.mpr (.inl hy)⟩)) hq
  | ok a q =>
    rw [Agrees, hprogress, hrun] at hstep
    obtain ⟨hy, hq⟩ := hstep
    refine .of_ok hrun (bind_eq_ok.mpr ⟨(), _, rfl, bind_eq_ok.mpr ⟨a, _, hy, ?_⟩⟩) (hback q hq)
    exact bind_eq_ok.mpr ⟨(), _, rfl, congrArg (EStateM.Result.ok a) (hleave q)⟩

/-- While a section is open, one name less is idle. -/
theorem EndsAt.whileSection {x : Resolve α} {y : Nat → Descend α} (hm : Matches i c)
    (hidle : name ∈ i.sections) (h : Ends (i.openSection name) x y) :
    EndsAt i c x fun m => Descend.whileSection name (y m) := by
  refine .between (hm.enterSection hidle) rfl (fun q => ?_) (fun q => hm.leaveSection hidle) h
  simp only [List.erase_cons_head]

/-- While a macro is open, one name less is idle. -/
theorem EndsAt.whileMacro {x : Resolve α} {y : Nat → Descend α} (hm : Matches i c)
    (hidle : name ∈ i.macros) (h : Ends (i.openMacro name) x y) :
    EndsAt i c x fun m => Descend.whileMacro name (y m) := by
  refine .between (hm.enterMacro hidle) rfl (fun q => ?_) (fun q => hm.leaveMacro hidle) h
  simp only [List.erase_cons_head]

/-- **A loop comes to an end if each step does**: from the greatest of their depths on. -/
theorem ends_forM {as : List α} {x : α → Resolve Unit} {y : Nat → α → Descend Unit}
    (h : ∀ a ∈ as, Ends i (x a) fun m => y m a) : Ends i (as.forM x) fun m => as.forM (y m) := by
  induction as with
  | nil => exact fun c hm => .pure hm ()
  | cons a as ih =>
    intro c hm
    exact (h a List.mem_cons_self c hm).bind fun _ q hq =>
      ih (fun b hb => h b (List.mem_cons_of_mem _ hb)) _ hq

/-! ## Values -/

section Values

variable {lookup : Reference → Span → Resolve Value} {call : Nat → Value → Descend Value}

/-- **Items come to an end if each one does.**  Each has a depth of its own, and the greatest will do. -/
theorem ends_items {vs : List Value} (h : ∀ v ∈ vs, Ends i (v.resolve lookup) fun m => call m v) :
    Ends i (Value.resolveItems lookup vs) fun m => vs.mapM (call m) := by
  induction vs with
  | nil => exact fun c hm => .pure hm []
  | cons v vs ih =>
    intro c hm
    simp only [List.mapM_cons]
    refine (h v List.mem_cons_self c hm).bind fun w q hq => ?_
    refine (ih (fun u hu => h u (List.mem_cons_of_mem _ hu)) _ hq).bind fun ws q' hq' => ?_
    exact .pure hq' (w :: ws)

/-- Fields come to an end if each value does. -/
theorem ends_fields {es : Entries Value}
    (h : ∀ e ∈ es, Ends i (e.2.resolve lookup) fun m => call m e.2) :
    Ends i (Value.resolveFields lookup es) fun m => Descend.fields (call m) es := by
  induction es with
  | nil => exact fun c hm => .pure hm []
  | cons e es ih =>
    intro c hm
    simp only [Descend.fields, List.mapM_cons, bind_assoc, pure_bind]
    refine (h e List.mem_cons_self c hm).bind fun w q hq => ?_
    refine (ih (fun f hf => h f (List.mem_cons_of_mem _ hf)) _ hq).bind fun fs q' hq' => ?_
    exact .pure hq' ((e.1, w) :: fs)

/-- The properties of a section come to an end if each one does. -/
theorem ends_table {t : Table Value}
    (h : ∀ e ∈ t.entries, Ends i (e.2.resolve lookup) fun m => call m e.2) :
    Ends i (resolveTable lookup t) fun m => Descend.table (call m) t := fun c hm =>
  (ends_fields h c hm).bind fun fs _ hq => .pure hq (Table.ofList fs)

theorem ends_option {o : Option Value} (h : ∀ v ∈ o, Ends i (v.resolve lookup) fun m => call m v) :
    Ends i (Value.resolveOption lookup o) fun m => Descend.option (call m) o := by
  cases o with
  | none => exact fun c hm => .pure hm none
  | some v => exact fun c hm => (h v rfl c hm).bind fun w _ hq => .pure hq (some w)

end Values

/-- **Every value is walked through to its end**, if every reference is. -/
theorem ends_value {lookup : Reference → Span → Resolve Value}
    (h : ∀ r span, Ends i (lookup r span) fun m => Descend.resolveReference p m r span) (v : Value) :
    Ends i (v.resolve lookup) fun m => Descend.resolveValue p m v := by
  induction v using Value.induction with
  | atom a span =>
    intro c hm
    refine .call ?_
    cases a with
    | reference r => exact h r span c hm
    | _ => exact .pure hm _
  | sequence k items span ih =>
    exact fun c hm => .call ((ends_items ih c hm).bind fun vs _ hq =>
      .pure hq (Value.sequence k vs span))
  | record k fields span ih =>
    exact fun c hm => .call ((ends_fields ih c hm).bind fun fs _ hq =>
      .pure hq (Value.record k fs span))
  | binary l op r span ihl ihr =>
    intro c hm
    refine .call ((ihl c hm).bind fun v q hq => (ihr _ hq).bind fun w q' hq' => ?_)
    cases v.combine op w span with
    | ok u => exact .pure hq' u
    | error f => exact .throw hq' f
  | neg v span ih =>
    intro c hm
    refine .call ((ih c hm).bind fun w q hq => ?_)
    cases w.opposite span with
    | ok u => exact .pure hq u
    | error f => exact .throw hq f
  | rule m d lo hi span ihd ihlo ihhi =>
    intro c hm
    refine .call ((ends_option ihd c hm).bind fun d' q hq => ?_)
    refine (ends_option ihlo _ hq).bind fun lo' q' hq' => ?_
    exact (ends_option ihhi _ hq').bind fun hi' _ hq'' => .pure hq'' (Value.rule m d' lo' hi' span)

/-! ## Sections, macros and references -/

/-- Resolves what an open section holds. -/
def fillContents (p : Providers) (j : Idle) (name : String) : Resolve Unit := do
  let (properties, registry) ← takeContents name
  let lookup := resolveReference p j
  let properties ← resolveTable lookup properties
  let registry ← Value.resolveItems lookup registry
  putContents name properties registry

/-- To resolve the contents of a section is to fill them in and to note that the section is done. -/
theorem resolveContents_eq (p : Providers) (j : Idle) (name : String) :
    resolveContents p j name = fillContents p j name >>= fun _ =>
      modify fun q => { q with doneSections := name :: q.doneSections } := by
  simp only [resolveContents, fillContents, bind_assoc]

/-- The contents of a section come to an end if each expression does. -/
theorem ends_contents (h : ∀ v, Ends i (v.resolve (resolveReference p i)) fun m =>
      Descend.resolveValue p m v) (name : String) :
    Ends i (fillContents p i name) fun m => Descend.contents (Descend.resolveValue p m) name := by
  intro c hm
  refine (EndsAt.step hm fun _ _ hrun => .takeContents hrun).bind fun held q hq => ?_
  refine (ends_table (fun e _ => h e.2) _ hq).bind fun properties q' hq' => ?_
  refine (ends_items (fun v _ => h v) _ hq').bind fun registry q'' hq'' => ?_
  exact .step hq'' fun _ _ hrun => by cases hrun; exact .alter q'' name _

/-- Parents are called one level deeper. -/
theorem ends_parent {j : Idle} (h : ∀ n, Ends j (resolveSection p j n) fun m =>
      Descend.resolveSection p m n) (span : Span) (parent : String) :
    Ends j (adoptParent p j name span parent) fun m =>
      Descend.parent (Descend.resolveSection p m) name span parent := by
  intro c hm
  cases hcontains : c.progress.document.sections.contains parent with
  | false =>
    have hrun : ∀ m, Descend.parent (Descend.resolveSection p m) name span parent c
        = Descend.step (throw (.compile (.parentMissing parent name) (some span))) c := by
      intro m
      rw [Descend.parent, get_bind, hcontains]
      rfl
    exact .congr (adoptParent_of_missing hcontains) hrun (.throw hm _)
  | true =>
    have hrun : ∀ m, Descend.parent (Descend.resolveSection p m) name span parent c
        = (Descend.resolveSection p m parent >>= fun _ =>
            Descend.step (changeDocument (·.inherit name parent))) c := by
      intro m
      rw [Descend.parent, get_bind, hcontains]
      rfl
    refine .congr (adoptParent_of_declared hcontains) hrun ((h parent c hm).bind fun _ q hq => ?_)
    exact .step hq fun _ _ hrun => .inherit hrun

/-- **Sections come to an end**, if that is so with fewer names idle. -/
theorem ends_section
    (hsection : ∀ n ∈ i.sections, ∀ name, Ends (i.openSection n)
      (resolveSection p (i.openSection n) name) fun m => Descend.resolveSection p m name)
    (hvalue : ∀ n ∈ i.sections, ∀ v : Value, Ends (i.openSection n)
      (v.resolve (resolveReference p (i.openSection n))) fun m => Descend.resolveValue p m v)
    (name : String) : Ends i (resolveSection p i name) fun m => Descend.resolveSection p m name := by
  intro c hm
  refine .call ?_
  by_cases hdone : name ∈ c.progress.doneSections
  · have hend : EndsAt i c (pure () : Resolve Unit) fun _ => pure () := .pure hm ()
    refine .congr (resolveSection_of_done hdone) (fun m => ?_) hend
    rw [Descend.resolveSection, get_bind, if_pos hdone]
  cases hs : c.progress.document.sections.get? name with
  | none =>
    refine .congr (resolveSection_of_missing hdone hs) (fun m => ?_) (.throw hm _)
    rw [Descend.resolveSection, get_bind, if_neg hdone, hs]
  | some s =>
    have hthere : c.progress.document.sections.contains name := by rw [Table.contains, hs]; rfl
    by_cases hopen : name ∈ c.openSections
    · have hidle : name ∉ i.sections := fun h => ((hm.idleSection name).mp h).2 hopen
      refine .congr (resolveSection_of_open hdone hs hidle) (fun m => ?_) (.throw hm _)
      rw [Descend.resolveSection, get_bind, if_neg hdone, hs]
      simp only [if_pos hopen]
    · have hidle : name ∈ i.sections := (hm.idleSection name).mpr ⟨hthere, hopen⟩
      -- with this section open there are fewer idle names: that is where the hypotheses apply
      have hbody : Ends (i.openSection name)
          (s.parents.forM (adoptParent p (i.openSection name) name s.span) >>= fun _ =>
            fillContents p (i.openSection name) name)
          fun m => s.parents.forM (Descend.parent (Descend.resolveSection p m) name s.span) >>=
            fun _ => Descend.contents (Descend.resolveValue p m) name := fun c hm =>
        (ends_forM (fun parent _ => ends_parent (hsection name hidle) s.span parent) c hm).bind
          fun _ q hq => ends_contents (hvalue name hidle) name _ hq
      -- the resolver notes the section as done in the same breath; here it is a step of its own,
      -- after the section has been closed
      have hx : resolveSection p i name c.progress =
          ((s.parents.forM (adoptParent p (i.openSection name) name s.span) >>= fun _ =>
            fillContents p (i.openSection name) name) >>= fun _ =>
              modify fun q => { q with doneSections := name :: q.doneSections }) c.progress := by
        rw [resolveSection_of_idle hdone hs hidle, resolveContents_eq, bind_assoc]
      refine .congr hx (fun m => ?_) ((EndsAt.whileSection hm hidle hbody).bind fun _ q hq =>
        .step hq fun _ _ hrun => ?_)
      · rw [Descend.resolveSection, get_bind, if_neg hdone, hs]
        simp only [if_neg hopen]
      · cases hrun
        exact ⟨fun _ => rfl, fun _ => rfl, fun _ hm => .inl hm⟩

/-- **Macros come to an end**, if that is so with fewer names idle. -/
theorem ends_macro
    (hvalue : ∀ n ∈ i.macros, ∀ v : Value, Ends (i.openMacro n)
      (v.resolve (resolveReference p (i.openMacro n))) fun m => Descend.resolveValue p m v)
    (name : String) (span : Span) :
    Ends i (resolveMacro p i name span) fun m => Descend.resolveMacro p m name span := by
  intro c hm
  refine .call ?_
  by_cases hdone : name ∈ c.progress.doneMacros
  · obtain ⟨v, hv⟩ := Option.isSome_iff_exists.mp (hm.doneMacro name hdone)
    have hend : EndsAt i c (pure (v.withSpan span) : Resolve Value) fun _ => pure _ := .pure hm _
    refine .congr (resolveMacro_of_done hv hdone) (fun m => ?_) hend
    rw [Descend.resolveMacro, get_bind, if_pos hdone, hv]
  -- the resolver asks whether the macro is there first, but an open macro always is
  by_cases hopen : name ∈ c.openMacros
  · obtain ⟨v, hv⟩ := Option.isSome_iff_exists.mp (hm.openMacro name hopen)
    have hidle : name ∉ i.macros := fun h => ((hm.idleMacro name).mp h).2 hopen
    refine .congr (resolveMacro_of_open hv hdone hidle) (fun m => ?_) (.throw hm _)
    rw [Descend.resolveMacro, get_bind, if_neg hdone]
    simp only [if_pos hopen]
  cases hv : c.progress.document.macros.get? name with
  | none =>
    refine .congr (resolveMacro_of_missing hv) (fun m => ?_) (.throw hm _)
    rw [Descend.resolveMacro, get_bind, if_neg hdone]
    simp only [if_neg hopen, hv]
  | some e =>
    have hthere : c.progress.document.macros.contains name := by rw [Table.contains, hv]; rfl
    have hidle : name ∈ i.macros := (hm.idleMacro name).mpr ⟨hthere, hopen⟩
    refine .congr (resolveMacro_of_idle hv hdone hidle) (fun m => ?_)
      ((EndsAt.whileMacro hm hidle (hvalue name hidle e)).bind fun w q hq =>
        (EndsAt.step hq fun _ _ hrun => ?_).bind fun _ q' hq' => .pure hq' (w.withSpan span))
    · rw [Descend.resolveMacro, get_bind, if_neg hdone]
      simp only [if_neg hopen, hv]
    · cases hrun
      exact .note ((hq.idleMacro name).mp hidle).1

/-- References to properties come to an end, if sections do. -/
theorem ends_crossSection
    (hsection : ∀ name, Ends i (resolveSection p i name) fun m => Descend.resolveSection p m name)
    (target : String) (span : Span) : Ends i (resolveReference p i ⟨.crossSection, target⟩ span)
      fun m => Descend.resolveReference p m ⟨.crossSection, target⟩ span := by
  intro c hm
  refine .call ?_
  cases hkey : Reference.sectionKey? ⟨.crossSection, target⟩ with
  | none =>
    refine .congr (resolveReference_of_badTarget hkey) (fun m => ?_) (.throw hm _)
    simp only [Descend.resolveReference, hkey]
  | some e =>
    obtain ⟨name, key⟩ := e
    cases hthere : c.progress.document.sections.contains name with
    | false =>
      have hclosed : name ∉ c.openSections := fun h => by
        rw [hm.openSection name h] at hthere
        cases hthere
      refine .congr (resolveReference_of_missing hkey hthere) (fun m => ?_) (.throw hm _)
      simp only [Descend.resolveReference, hkey]
      rw [get_bind, if_neg hclosed, hthere]
      rfl
    | true =>
      -- an open section is refused, though it is there: its contents are not finished
      by_cases hopen : name ∈ c.openSections
      · have hidle : name ∉ i.sections := fun h => ((hm.idleSection name).mp h).2 hopen
        refine .congr (resolveReference_of_open hkey hthere hidle) (fun m => ?_) (.throw hm _)
        simp only [Descend.resolveReference, hkey]
        rw [get_bind, if_pos hopen]
      · have hidle : name ∈ i.sections := (hm.idleSection name).mpr ⟨hthere, hopen⟩
        refine .congr (resolveReference_of_idle hkey hthere hidle) (fun m => ?_)
          ((hsection name c hm).bind fun _ q hq => .step hq fun _ _ hrun => .readProperty hrun)
        simp only [Descend.resolveReference, hkey]
        rw [get_bind, if_neg hopen, hthere]
        rfl

/-- **References come to an end**, if sections and macros do. -/
theorem ends_reference
    (hsection : ∀ name, Ends i (resolveSection p i name) fun m => Descend.resolveSection p m name)
    (hnamed : ∀ name span, Ends i (resolveMacro p i name span) fun m =>
      Descend.resolveMacro p m name span) (r : Reference) (span : Span) :
    Ends i (resolveReference p i r span) fun m => Descend.resolveReference p m r span := by
  obtain ⟨kind, target⟩ := r
  cases kind with
  | crossSection => exact ends_crossSection hsection target span
  | macroName =>
    intro c hm
    refine .call ?_
    rw [resolveReference_macroName]
    exact hnamed target span c hm
  | localization =>
    intro c hm
    refine .call ?_
    rw [resolveReference_localization]
    exact .pure hm _
  | environment =>
    intro c hm
    refine .call ?_
    rw [resolveReference_environment]
    simp only [Descend.resolveReference]
    cases p.environment target span with
    | ok v => exact .pure hm v
    | error f => exact .throw hm f

/-- **Every call comes to an end**, by induction on the idle names. -/
theorem ends_all (p : Providers) (i : Idle) :
    (∀ name, Ends i (resolveSection p i name) fun m => Descend.resolveSection p m name) ∧
      (∀ name span, Ends i (resolveMacro p i name span) fun m =>
        Descend.resolveMacro p m name span) ∧
      ∀ r span, Ends i (resolveReference p i r span) fun m =>
        Descend.resolveReference p m r span := by
  induction i using Idle.induction with
  | step i ihs ihm =>
    have hsection := ends_section (fun n hn => (ihs n hn).1) fun n hn => ends_value (ihs n hn).2.2
    have hnamed := ends_macro fun n hn => ends_value (ihm n hn).2.2
    exact ⟨hsection, hnamed, ends_reference hsection hnamed⟩

/-! ## Documents -/

/-- The rules of all schemas come to an end. -/
theorem ends_schemas (es : Entries Section) :
    Ends i (resolveSchemas (resolveReference p i) es) fun m =>
      es.mapM fun e => do return (e.1, ← Descend.schema (Descend.resolveValue p m) e.2) := by
  have hvalue := ends_value (ends_all p i).2.2
  have hschema : ∀ s, Ends i (resolveSchema (resolveReference p i) s) fun m =>
      Descend.schema (Descend.resolveValue p m) s := fun s c hm =>
    (ends_table (fun f _ => hvalue f.2) c hm).bind fun properties _ hq =>
      .pure hq { s with properties }
  induction es with
  | nil => exact fun c hm => .pure hm []
  | cons e es ih =>
    intro c hm
    simp only [List.mapM_cons, bind_assoc, pure_bind]
    exact (hschema e.2 c hm).bind fun s q hq => (ih _ hq).bind fun fs _ hq' =>
      .pure hq' ((e.1, s) :: fs)

/-- At the start no name is open. -/
theorem matches_start (d : Document) : Matches (.all d) { progress := ⟨d, [], []⟩ } where
  nodupSections := d.sections.nodup_keys
  nodupMacros := d.macros.nodup_keys
  idleSection _ := ⟨fun h => ⟨Table.contains_iff.mpr h, List.not_mem_nil⟩,
    fun h => Table.contains_iff.mp h.1⟩
  idleMacro _ := ⟨fun h => ⟨Table.contains_iff.mpr h, List.not_mem_nil⟩,
    fun h => Table.contains_iff.mp h.1⟩
  openSection _ h := absurd h List.not_mem_nil
  openMacro _ h := absurd h List.not_mem_nil
  doneMacro _ h := absurd h List.not_mem_nil

/-- Other schemas change no name. -/
theorem EndsAt.withSchemas (h : Matches i c) (schemas : Table Section) :
    EndsAt i c (changeDocument ({ · with schemas })) fun _ =>
      Descend.step (changeDocument ({ · with schemas })) :=
  .step h fun _ _ hrun => by
    cases hrun
    exact ⟨fun _ => rfl, fun _ => rfl, fun _ hm => .inl hm⟩

/-- **All macros and sections come to an end.** -/
theorem ends_resolveNodes (p : Providers) (d : Document) :
    Ends (.all d) (Progress.resolveNodes p d) fun m => Descend.resolveNodes p m d := by
  obtain ⟨hsection, hnamed, -⟩ := ends_all p (.all d)
  intro c hm
  refine (ends_forM (fun name _ c hm => ?_) c hm).bind fun _ q hq =>
    ends_forM (fun name _ => hsection name) _ hq
  exact (hnamed name .none c hm).bind fun _ _ hq => .pure hq ()

/-- The schemas are taken out, resolved, and put back; all of it comes to an end. -/
theorem ends_resolveSchemas : Ends i (do
      let schemas := (← get).document.schemas
      changeDocument ({ · with schemas := ∅ })
      let schemas ← Yini.resolveSchemas (resolveReference p i) schemas.entries
      changeDocument ({ · with schemas := .ofList schemas })) fun m =>
    Descend.resolveSchemas p m := by
  intro c hm
  refine .congr (get_bind _ _) (fun m => get_bind _ _) ?_
  refine (EndsAt.withSchemas hm ∅).bind fun _ q hq => ?_
  exact (ends_schemas _ _ hq).bind fun es _ hq' => .withSchemas hq' (.ofList es)

/-- **Resolving comes to an end**, for every document, whatever in it depends on itself: from some depth
    on the recursion is never cut off, and it does what the resolver does. -/
theorem Document.descend_ends (p : Providers) (d : Document) :
    ∃ n, ∀ m, n ≤ m → d.descend p m = some (d.resolveOrStop p) := by
  obtain ⟨n, hn⟩ := (ends_resolveNodes p d.gatherMacros _ (matches_start d.gatherMacros)).bind
    fun _ _ hq => ends_resolveSchemas _ hq
  refine ⟨n, fun m hm => ?_⟩
  have hrun : Agrees _ _ _ (Descend.resolveNodes p m d.gatherMacros >>= fun _ =>
    Descend.resolveSchemas p m) := hn m hm
  have hstart : Descend.resolveAll p m { progress := ⟨d, [], []⟩ }
      = (Descend.resolveNodes p m d.gatherMacros >>= fun _ => Descend.resolveSchemas p m)
          { progress := ⟨d.gatherMacros, [], []⟩ } := rfl
  unfold descend resolveOrStop
  rw [hstart, Progress.resolveAll_eq]
  unfold Agrees at hrun
  split at hrun
  next u q hx =>
    rw [hx, hrun.1]
  next f q hx =>
    obtain ⟨c', hy, rfl⟩ := hrun
    rw [hx, hy]

-- Six calls nest here: macro, expression and reference, then macro, operation and operand.
example :
    let d : Document := { macros := .ofList [
      ("a", .atom (.reference ⟨.macroName, "b"⟩) .none), ("b", .neg (.atom (.int 1) .none) .none)] }
    (d.descend .none 5).isNone ∧ (d.descend .none 6).isSome := by
  decide +kernel

end Yini
