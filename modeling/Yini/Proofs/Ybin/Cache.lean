import Yini.Proofs.Compile.Compiled
import Yini.Proofs.Ybin.RoundTrip

/-!
Compiled documents as bytes.

The parser bounds how deeply containers nest in the source, value by value.  Resolving puts the values
of macros and of other properties into containers, so a compiled value can nest more deeply than any
value that was read.  The writer does not look at the nesting, and the reader refuses what nests more
deeply than the bound.  So the bytes of a resolved document give it back exactly if it is shallow
(`encode_decode_compiled`), and there are texts whose document is not (`nestedMacro_not_decoded`).
-/

namespace Yini

/-- A resolved value that can be written has a form. -/
theorem Value.Legible.encodable {unsigned : Bool} {v : Value} (h : v.Legible unsigned)
    (hresolved : v.isResolved) : v.encodable := by
  induction h with
  | atom => rfl
  | @sequence kind vs span _ ih =>
    rw [isResolved, allResolved_iff] at hresolved
    exact allEncodable_iff.mpr fun v hv => ih v hv (hresolved v hv)
  | @record kind fields span _ _ _ _ ih =>
    rw [isResolved, allFieldsResolved_iff] at hresolved
    exact allFieldsEncodable_iff.mpr fun e he => ih e he (hresolved e he)
  | binary => cases hresolved
  | neg => cases hresolved

namespace Document

variable {d : Document}

/-- The contents of the sections of a legible document are legible. -/
theorem Legible.contents (h : d.Legible) {s : Section} (hs : s ∈ d.sections.values) :
    ∀ v ∈ s.contents, v.Legible false := by
  obtain ⟨n, hn⟩ := Table.mem_values_iff.mp hs
  exact (h.sections n s hn).contents

/-- The sections of a legible document stand under their names. -/
theorem Legible.storedByName (h : d.Legible) : d.storedByName := by
  rw [Document.storedByName, List.all_eq_true]
  rintro ⟨n, s⟩ he
  exact beq_iff_eq.mpr (h.named.sections n s (Table.mem_entries_iff.mp he))

theorem Legible.wellFormed (h : d.Legible) : d.wellFormed := by
  rw [Document.wellFormed, List.all_eq_true]
  intro s hs
  rw [List.all_eq_true]
  exact fun v hv => (h.contents hs v hv).wellFormed

/-- A legible document can be encoded if it is resolved: then no operation is left in it. -/
theorem Legible.encodable (h : d.Legible) (hresolved : d.isResolved) : d.encodable := by
  rw [Document.isResolved, List.all_eq_true] at hresolved
  rw [Document.encodable, List.all_eq_true]
  intro s hs
  have hsection := hresolved s hs
  rw [Section.isResolved, Bool.and_eq_true, List.all_eq_true, List.all_eq_true] at hsection
  rw [List.all_eq_true]
  intro v hv
  refine (h.contents hs v hv).encodable ?_
  rcases List.mem_append.mp hv with hv | hv
  · exact hsection.1 v hv
  · exact hsection.2 v hv

/-- The bytes of a compiled document keep its macros, for they are the properties of `[#define]`. -/
theorem Compiled.get?_macros_kept (h : d.Compiled) (k : String) :
    d.kept.macros.get? k = (d.macros.get? k).map Value.bare := by
  rw [h.macros, Document.get?, kept]
  cases d.sections.get? defineName with
  | none => rfl
  | some s => exact Table.get?_mapValues _ _ _

end Document

/-- Reads a document from its characters. -/
def Document.ofChars (file : Option String) (cs : List Char) : Except Fault Document :=
  match Lexeme.readFrom file (.start cs) [] with
  | .ok (lexemes, finish) =>
    match Grammar.document (.start file cs lexemes finish) with
    | .ok d _ => .ok d
    | .error fault _ => .error fault
  | .error fault => .error fault

theorem Document.ofSource_ofList (file : Option String) (cs : List Char) :
    Document.ofSource file (String.ofList cs) = Document.ofChars file cs := by
  unfold Document.ofSource Parser.ofSource Lexeme.read ofChars
  rw [String.toList_ofList]
  cases Lexeme.readFrom file (.start cs) [] <;> rfl

namespace Ybin

/-- **A compiled document as bytes.**  If it is resolved and its counts fit, it has bytes.  They give
    back its sections and its macros exactly if its containers are not nested too deeply; otherwise the
    fault is 611. -/
theorem encode_decode_compiled {c : Compiler} {d : Document}
    (h : (∃ text, c.compile text = .ok d) ∨ ∃ path, c.compileFile path = .ok d)
    (hresolved : d.isResolved) (hfits : documentFits d) :
    ∃ bytes, encode d = .ok bytes ∧
      (d.shallow → ∃ e, decode bytes = .ok e ∧ e.sections = d.sections.mapValues Section.bare ∧
        ∀ k, e.macros.get? k = (d.macros.get? k).map Value.bare) ∧
      (¬d.shallow → ∃ fault, decode bytes = .error fault ∧ fault.code = 611) := by
  have hcompiled : d.Compiled := by
    rcases h with ⟨text, h⟩ | ⟨path, h⟩
    · exact Compiler.compiled_of_compile h
    · exact Compiler.compiled_of_compileFile h
  have hwell := hcompiled.legible.wellFormed
  have hencodable := hcompiled.legible.encodable hresolved
  refine ⟨_, encode_of_encodable hfits hencodable, fun hshallow => ?_, fun hdeep => ?_⟩
  · exact ⟨d.kept, decode_of_shallow hcompiled.legible.storedByName hwell hfits hencodable hshallow,
      rfl, hcompiled.get?_macros_kept⟩
  · exact decode_of_not_shallow hwell hfits hencodable (Bool.eq_false_iff.mpr hdeep)

/-- A compiler without files, variables and localized texts. -/
def plainCompiler : Compiler := ⟨.ofTexts ∅, .none, none⟩

/-- A macro, and a section that puts it into containers. -/
def macroText : String :=
  "[#define]\nk = [2]\n[A]\nx = \x7ba: @k, b: -0.5\x7d\n[B] : A\n+= Path(\"p\")\n"

/-- A text with a macro that is put into a property. -/
theorem encode_decode_compiled_macroText : ∃ d, plainCompiler.compile macroText = .ok d ∧
    d.isResolved ∧ documentFits d ∧ ∃ bytes, encode d = .ok bytes ∧
      (d.shallow → ∃ e, decode bytes = .ok e ∧ e.sections = d.sections.mapValues Section.bare ∧
        ∀ k, e.macros.get? k = (d.macros.get? k).map Value.bare) ∧
      (¬d.shallow → ∃ fault, decode bytes = .error fault ∧ fault.code = 611) := by
  have hok : ((plainCompiler.compile macroText).toOption.filter fun d =>
      d.isResolved && documentFits d).isSome := by decide +kernel
  obtain ⟨d, hd⟩ := Option.isSome_iff_exists.mp hok
  obtain ⟨hd, hboth⟩ := Option.filter_eq_some_iff.mp hd
  obtain ⟨hresolved, hfits⟩ := Bool.and_eq_true_iff.mp hboth
  have hcompile := eq_ok_of_toOption hd
  exact ⟨d, hcompile, hresolved, hfits,
    encode_decode_compiled (.inl ⟨macroText, hcompile⟩) hresolved hfits⟩

/-- The characters of a text with two sections: a macro of nested arrays, and a property that holds the
    macro in nested arrays. -/
def nestedMacro : List Char :=
  let nested (inner : List Char) : List Char := List.replicate 70 '[' ++ inner ++ List.replicate 70 ']'
  "[#define]\na = ".toList ++ nested [] ++ "\n[S]\nx = ".toList ++ nested ['@', 'a'] ++ ['\n']

/-- Each of the two values nests less deeply than the bound, and the resolved property more deeply: it
    is encoded, and its bytes are refused. -/
theorem nestedMacro_not_decoded : ∃ d bytes fault,
    plainCompiler.compile (String.ofList nestedMacro) = .ok d ∧ d.isResolved ∧
      encode d = .ok bytes ∧ decode bytes = .error fault ∧ fault.code = 611 := by
  have hok : ((Document.ofChars none nestedMacro).toOption.bind fun e =>
      (e.resolve .none).toOption.filter fun d => (e.sections.get? includeName).isNone &&
        d.isResolved && documentFits d && !d.shallow).isSome := by decide +kernel
  obtain ⟨d, hd⟩ := Option.isSome_iff_exists.mp hok
  obtain ⟨e, he, hd⟩ := Option.bind_eq_some_iff.mp hd
  obtain ⟨hd, hall⟩ := Option.filter_eq_some_iff.mp hd
  simp only [Bool.and_eq_true, Bool.not_eq_true', Option.isNone_iff_eq_none] at hall
  obtain ⟨⟨⟨hinclude, hresolved⟩, hfits⟩, hdeep⟩ := hall
  have hparse := (Document.ofSource_ofList none nestedMacro).trans (eq_ok_of_toOption he)
  have hcompile : plainCompiler.compile (String.ofList nestedMacro) = .ok d :=
    (Compiler.compile_of_ofSource hparse hinclude).trans (eq_ok_of_toOption hd)
  have hlegible := (Compiler.compiled_of_compile hcompile).legible
  have hencodable := hlegible.encodable hresolved
  obtain ⟨fault, hfault, hcode⟩ := decode_of_not_shallow hlegible.wellFormed hfits hencodable hdeep
  exact ⟨d, _, fault, hcompile, hresolved, encode_of_encodable hfits hencodable, hfault, hcode⟩

end Ybin

end Yini
