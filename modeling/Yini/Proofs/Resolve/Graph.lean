import Mathlib.Logic.Relation
import Yini.Proofs.Document
import Yini.Proofs.Resolve.Meaning

/-!
The graph along which a document is resolved.

Its nodes are sections and macros.  A section leads to its parents and to what its own values refer
to, and a macro to what its value refers to (`Document.Edge`).  Resolving starts at the
`Document.roots` and follows the edges.

A node is *grounded* if every way from it comes to an end.  No cycle can be reached from a grounded
node (`Document.Grounded.not_cycle`).  A node is *led to* by those that are being resolved
(`Document.Leads`) if each of them reaches it; so coming upon one of them again closes a cycle
(`Document.Leads.cyclic`).
-/

namespace Yini

open Relation

/-- A section or a macro. -/
inductive Node where
  | ofSection (name : String)
  | ofMacro (name : String)
deriving DecidableEq

/-- What has to be resolved before a reference has a value. -/
def Reference.node? (r : Reference) : Option Node :=
  match r.kind with
  | .macroName => some (.ofMacro r.target)
  | .crossSection => r.sectionKey?.map fun e => .ofSection e.1
  | .environment => none
  | .localization => none

/-- What a value refers to. -/
def Value.nodes (v : Value) : List Node := v.references.filterMap Reference.node?

namespace Document

variable {d : Document} {i : Idle}

/-! ## Edges and cycles -/

/-- What a section or a macro leads to. -/
def successors (d : Document) : Node → List Node
  | .ofSection name =>
    match d.sections.get? name with
    | some s => s.parents.map .ofSection ++ s.contents.flatMap Value.nodes
    | none => []
  | .ofMacro name =>
    match d.macros.get? name with
    | some v => v.nodes
    | none => []

/-- Whether the first node leads to the second one. -/
def Edge (d : Document) (a b : Node) : Prop := b ∈ d.successors a

/-- The macros, and the sections without special meaning. -/
def dataRoots (d : Document) : List Node :=
  d.macros.keys.map .ofMacro ++ (d.sections.keys.filter (!Section.isSpecialName ·)).map .ofSection

/-- What the rules of schemas refer to. -/
def schemaRoots (d : Document) : List Node :=
  d.schemas.values.flatMap fun s => s.properties.values.flatMap Value.nodes

/-- Where resolving starts. -/
def roots (d : Document) : List Node := d.dataRoots ++ d.schemaRoots

/-- Whether a cycle can be reached from one of these nodes. -/
def CyclicFrom (d : Document) (starts : List Node) : Prop :=
  ∃ start ∈ starts, ∃ n, ReflTransGen d.Edge start n ∧ TransGen d.Edge n n

/-- Whether a node can be reached from a root. -/
def Reached (d : Document) (n : Node) : Prop := ∃ root ∈ d.roots, ReflTransGen d.Edge root n

/-- Whether a cycle can be reached from a root. -/
def Cyclic (d : Document) : Prop := d.CyclicFrom d.roots

theorem edge_parent {name parent : String} {s : Section} (hs : d.sections.get? name = some s)
    (h : parent ∈ s.parents) : d.Edge (.ofSection name) (.ofSection parent) := by
  show _ ∈ d.successors _
  rw [successors, hs]
  exact List.mem_append_left _ (List.mem_map.mpr ⟨parent, h, rfl⟩)

/-- A section leads to what its contents refer to. -/
theorem edge_contents {name : String} {s : Section} (hs : d.sections.get? name = some s) {v : Value}
    (hv : v ∈ s.contents) {r : Reference} (hr : r ∈ v.references) {n : Node}
    (hn : r.node? = some n) : d.Edge (.ofSection name) n := by
  show _ ∈ d.successors _
  rw [successors, hs]
  exact List.mem_append_right _
    (List.mem_flatMap.mpr ⟨v, hv, List.mem_filterMap.mpr ⟨r, hr, hn⟩⟩)

/-- A macro leads to what its value refers to. -/
theorem edge_macro {name : String} {v : Value} (hv : d.macros.get? name = some v) {r : Reference}
    (hr : r ∈ v.references) {n : Node} (hn : r.node? = some n) : d.Edge (.ofMacro name) n := by
  show _ ∈ d.successors _
  rw [successors, hv]
  exact List.mem_filterMap.mpr ⟨r, hr, hn⟩

/-- An edge from a section goes to a parent or to what one of its values refers to. -/
theorem edge_section_cases {name : String} {s : Section} (hs : d.sections.get? name = some s)
    {n : Node} (h : d.Edge (.ofSection name) n) :
    (∃ parent ∈ s.parents, n = .ofSection parent) ∨
      ∃ v ∈ s.contents, ∃ r ∈ v.references, r.node? = some n := by
  have h : n ∈ d.successors (.ofSection name) := h
  rw [successors, hs] at h
  rcases List.mem_append.mp h with h | h
  · obtain ⟨parent, hp, rfl⟩ := List.mem_map.mp h
    exact .inl ⟨parent, hp, rfl⟩
  · obtain ⟨v, hv, h⟩ := List.mem_flatMap.mp h
    obtain ⟨r, hr, h⟩ := List.mem_filterMap.mp h
    exact .inr ⟨v, hv, r, hr, h⟩

/-- An edge from a macro goes to what its value refers to. -/
theorem edge_macro_cases {name : String} {v : Value} (hv : d.macros.get? name = some v) {n : Node}
    (h : d.Edge (.ofMacro name) n) : ∃ r ∈ v.references, r.node? = some n := by
  have h : n ∈ d.successors (.ofMacro name) := h
  rw [successors, hv] at h
  exact List.mem_filterMap.mp h

theorem macro_mem_dataRoots {name : String} (h : name ∈ d.macros.keys) :
    .ofMacro name ∈ d.dataRoots :=
  List.mem_append_left _ (List.mem_map.mpr ⟨name, h, rfl⟩)

/-- Every section without special meaning is a root. -/
theorem section_mem_dataRoots {name : String} (h : name ∈ d.sections.keys)
    (hspecial : Section.isSpecialName name = false) : .ofSection name ∈ d.dataRoots := by
  refine List.mem_append_right _ (List.mem_map.mpr ⟨name, ?_, rfl⟩)
  exact List.mem_filter.mpr ⟨h, by rw [hspecial]; rfl⟩

/-- What the rule of a schema refers to is a root. -/
theorem schema_mem_roots {s : Section} (hs : s ∈ d.schemas.values) {v : Value}
    (hv : v ∈ s.properties.values) {r : Reference} (hr : r ∈ v.references) {n : Node}
    (hn : r.node? = some n) : n ∈ d.roots := by
  refine List.mem_append_right _ (List.mem_flatMap.mpr ⟨s, hs, ?_⟩)
  exact List.mem_flatMap.mpr ⟨v, hv, List.mem_filterMap.mpr ⟨r, hr, hn⟩⟩

/-- Every root is a macro, a section without special meaning, or in a rule of a schema. -/
theorem mem_roots_cases {n : Node} (h : n ∈ d.roots) :
    (∃ name ∈ d.macros.keys, n = .ofMacro name) ∨
      (∃ name ∈ d.sections.keys, Section.isSpecialName name = false ∧ n = .ofSection name) ∨
        ∃ s ∈ d.schemas.values, ∃ v ∈ s.properties.values, ∃ r ∈ v.references,
          r.node? = some n := by
  rcases List.mem_append.mp h with h | h
  · rcases List.mem_append.mp h with h | h
    · obtain ⟨name, hname, rfl⟩ := List.mem_map.mp h
      exact .inl ⟨name, hname, rfl⟩
    · obtain ⟨name, hname, rfl⟩ := List.mem_map.mp h
      obtain ⟨hname, hspecial⟩ := List.mem_filter.mp hname
      exact .inr (.inl ⟨name, hname, by simpa using hspecial, rfl⟩)
  · obtain ⟨s, hs, h⟩ := List.mem_flatMap.mp h
    obtain ⟨v, hv, h⟩ := List.mem_flatMap.mp h
    obtain ⟨r, hr, h⟩ := List.mem_filterMap.mp h
    exact .inr (.inr ⟨s, hs, v, hv, r, hr, h⟩)

theorem reached_of_root {n : Node} (h : n ∈ d.roots) : d.Reached n := ⟨n, h, .refl⟩

theorem Reached.edge {n m : Node} (h : d.Reached n) (he : d.Edge n m) : d.Reached m := by
  obtain ⟨root, hroot, hreach⟩ := h
  exact ⟨root, hroot, hreach.tail he⟩

/-! ## Grounded nodes -/

/-- Every way from the node comes to an end. -/
def Grounded (d : Document) (n : Node) : Prop := Acc (fun a b => d.Edge b a) n

/-- A node is grounded if all it leads to is grounded. -/
theorem grounded_of_edges {n : Node} (h : ∀ m, d.Edge n m → d.Grounded m) : d.Grounded n :=
  Acc.intro n h

/-- What a grounded node leads to is grounded. -/
theorem Grounded.edge {n m : Node} (h : d.Grounded n) (he : d.Edge n m) : d.Grounded m :=
  Acc.inv h he

/-- All that can be reached from a grounded node is grounded. -/
theorem Grounded.reach {n m : Node} (h : d.Grounded n) (hr : ReflTransGen d.Edge n m) :
    d.Grounded m := by
  induction hr with
  | refl => exact h
  | tail _ he ih => exact ih.edge he

/-- A grounded node is on no cycle. -/
theorem Grounded.not_self {n : Node} (h : d.Grounded n) : ¬TransGen d.Edge n n := by
  induction h with
  | intro n _ ih =>
    -- the node after `n` on the cycle is on it as well
    intro hcycle
    obtain ⟨m, he, hback⟩ := TransGen.head'_iff.mp hcycle
    exact ih m he (TransGen.tail' hback he)

/-- **From grounded roots no cycle can be reached.** -/
theorem not_cyclic_of_grounded (h : ∀ n ∈ d.roots, d.Grounded n) : ¬d.Cyclic := by
  rintro ⟨root, hroot, n, hreach, hcycle⟩
  exact ((h root hroot).reach hreach).not_self hcycle

/-! ## The nodes that are being resolved -/

/-- A section or macro of the document is open if it is not idle. -/
def Open (d : Document) (i : Idle) : Node → Prop
  | .ofSection name => d.sections.contains name ∧ name ∉ i.sections
  | .ofMacro name => d.macros.contains name ∧ name ∉ i.macros

/-- A node that can be reached from a root and, in at least one step, from every open node. -/
structure Leads (d : Document) (i : Idle) (n : Node) : Prop where
  rooted : d.Reached n
  reached : ∀ o, d.Open i o → TransGen d.Edge o n

/-- **Coming upon an open node closes a cycle.** -/
theorem Leads.cyclic {n : Node} (h : d.Leads i n) (ho : d.Open i n) : d.Cyclic := by
  obtain ⟨root, hroot, hreach⟩ := h.rooted
  exact ⟨root, hroot, n, hreach, h.reached n ho⟩

/-- A node that is led to leads on along its edges, also when it has been opened itself. -/
theorem Leads.step {j : Idle} {m n : Node} (h : d.Leads i m) (he : d.Edge m n)
    (hopen : ∀ o, o ≠ m → d.Open j o → d.Open i o) : d.Leads j n := by
  refine ⟨h.rooted.edge he, fun o ho => ?_⟩
  -- an open node reaches `n` by way of `m`, if it is not `m` itself
  by_cases hm : o = m
  · rw [hm]
    exact .single he
  · exact (h.reached o (hopen o hm ho)).tail he

/-- While a section is being resolved, its edges lead on. -/
theorem Leads.openSection {name : String} {n : Node} (h : d.Leads i (.ofSection name))
    (he : d.Edge (.ofSection name) n) : d.Leads (i.openSection name) n := by
  refine h.step he fun o hne ho => ?_
  cases o with
  | ofMacro m => exact ho
  | ofSection m =>
    have hm : m ≠ name := fun heq => hne (by rw [heq])
    exact ⟨ho.1, fun hmem => ho.2 ((List.mem_erase_of_ne hm).mpr hmem)⟩

/-- While a macro is being resolved, its edges lead on. -/
theorem Leads.openMacro {name : String} {n : Node} (h : d.Leads i (.ofMacro name))
    (he : d.Edge (.ofMacro name) n) : d.Leads (i.openMacro name) n := by
  refine h.step he fun o hne ho => ?_
  cases o with
  | ofSection m => exact ho
  | ofMacro m =>
    have hm : m ≠ name := fun heq => hne (by rw [heq])
    exact ⟨ho.1, fun hmem => ho.2 ((List.mem_erase_of_ne hm).mpr hmem)⟩

/-- As long as nothing is open, every root leads on. -/
theorem Leads.of_root {n : Node} (h : n ∈ d.roots) : d.Leads (.all d) n := by
  refine ⟨reached_of_root h, fun o ho => ?_⟩
  cases o with
  | ofSection m => exact absurd (Table.contains_iff.mp ho.1) ho.2
  | ofMacro m => exact absurd (Table.contains_iff.mp ho.1) ho.2

end Document

end Yini
