import Yini.Proofs.Grammar.Phrase

/-!
Which words are a factor: one lemma for each form of a value in the grammar.
-/

namespace Yini.Grammar

variable {k : Scene} {p q : Parser} {w : Word} {ws rest : List Word} {v : Value} {d : Depth}

/-- The rule for a value that begins with this token. -/
def primaryOf (expression : Grammar Value) : Token → Grammar Value
  | .number digits => number digits
  | .string text => literal (.string text)
  | .bool b => literal (.bool b)
  | .mark .openBracket => array expression
  | .mark .openBrace => record expression
  | .mark .openParen => groupOrSet expression
  | .mark .hash => hexColor
  | .mark .atSign => atReference
  | .mark .dollar => environmentReference
  | .mark .percent => localizationReference
  | .ident name => named expression name
  | _ => fail .noValue

/-- What a factor is depends on its first token. -/
theorem primary_eq (expression : Grammar Value) : primary expression = peek >>= primaryOf expression :=
  rfl

/-- Words are a factor if the rule for their first token makes the value of them. -/
theorem isFactor_of_front {t : Token} (hw : w.token = t) (ht : t.opensValue) (hminus : t ≠ .mark .minus)
    (h : ∀ n {k p gap rest}, Stops rest → p.Faces k ({ w with gap } :: (ws ++ rest)) →
      Gives (d.Exceeds n) (fun u q => u.bare = v ∧ q.Faces k rest)
        (primaryOf (expressionOf (factor n)) t p)) :
    IsFactor d.deeper (w :: ws) v := by
  refine ⟨by rwa [front_cons, hw], fun n k p gap rest hstops hp => ?_⟩
  cases n with
  | zero => exact gives_tooDeep d.exceeds_zero
  | succ n =>
    have hp : p.Faces k ({ w with gap } :: (ws ++ rest)) := hp
    rw [factor, sees_bind hp, front_cons, hw, if_neg (by simpa using hminus), primary_eq, peek_bind hp,
      front_cons, hw]
    exact (h n hstops hp).mono Depth.Exceeds.deeper

/-! ## Single tokens -/

theorem isFactor_number {digits : String} {a : Atom} (hw : w.token = .number digits)
    (ha : numberOf? digits = some a) : IsFactor d.deeper [w] (.atom a .none) := by
  refine isFactor_of_front hw rfl (by simp) fun n k p gap rest _ hp => ?_
  show Gives _ _ (number digits p)
  rw [number, ha]
  exact ⟨rfl, hp.advance⟩

theorem isFactor_string {text : String} (hw : w.token = .string text) :
    IsFactor d.deeper [w] (.atom (.string text) .none) :=
  isFactor_of_front hw rfl (by simp) fun _ _ _ _ _ _ hp => ⟨rfl, hp.advance⟩

theorem isFactor_bool {b : Bool} (hw : w.token = .bool b) : IsFactor d.deeper [w] (.atom (.bool b) .none) :=
  isFactor_of_front hw rfl (by simp) fun _ _ _ _ _ _ hp => ⟨rfl, hp.advance⟩

/-! ## Minus signs -/

/-- The numeral of the least integer without its sign. -/
def isLeastNumeral : Token → Bool
  | .number digits => isLeastNegated digits
  | _ => false

/-- A minus sign negates the factor behind it. -/
theorem isFactor_neg (hw : w.token = .mark .minus) (h : IsFactor d ws v)
    (hleast : isLeastNumeral (front ws) = false) : IsFactor d.deeper (w :: ws) (.neg v .none) := by
  refine ⟨by rw [front_cons, hw]; rfl, fun n k p gap rest hstops hp => ?_⟩
  cases n with
  | zero => exact gives_tooDeep d.exceeds_zero
  | succ n =>
    have hp : p.Faces k ({ w with gap } :: (ws ++ rest)) := hp
    have hfront : front (ws ++ rest) = front ws := front_append (ne_nil_of_opens h.opens) rest
    obtain ⟨gap', hgap'⟩ := exists_regap ws
    have hrun : Gives (d.Exceeds n) (fun u q => u.bare = .neg v .none ∧ q.Faces k rest)
        ((do return .neg (← factor n) (p.current.span p.file) : Grammar Value) p.advance) := by
      have hp' : p.advance.Faces k (regap gap' ws ++ rest) := by
        rw [hgap']
        exact hp.advance
      exact (h.yields n hstops hp').bind fun u q ⟨hu, hq⟩ => ⟨by rw [Value.bare, hu], hq⟩
    rw [factor, sees_bind hp, front_cons, hw, if_pos (by simp), here_bind, bump_bind,
      peek_bind hp.advance, hfront]
    refine Gives.mono (?_ : Gives (d.Exceeds n) _ _) Depth.Exceeds.deeper
    cases hfirst : front ws with
    | number digits =>
      rw [hfirst] at hleast
      dsimp only
      rw [if_neg (by rw [isLeastNumeral] at hleast; simp [hleast])]
      exact hrun
    | _ => exact hrun

/-- The least integer is read with its sign. -/
theorem isFactor_least {w' : Word} (hw : w.token = .mark .minus)
    (hleast : isLeastNumeral w'.token = true) : IsFactor d.deeper [w, w'] (.atom (.int Int32.minValue) .none) := by
  refine ⟨by rw [front_cons, hw]; rfl, fun n k p gap rest _ hp => ?_⟩
  cases n with
  | zero => exact gives_tooDeep d.exceeds_zero
  | succ n =>
    have hp : p.Faces k ({ w with gap } :: w' :: rest) := hp
    rw [factor, sees_bind hp, front_cons, hw, if_pos (by simp), here_bind, bump_bind,
      peek_bind hp.advance, front_cons]
    unfold isLeastNumeral at hleast
    split at hleast
    next digits hdigits =>
      rw [hdigits]
      dsimp only
      rw [if_pos hleast]
      exact ⟨rfl, hp.advance.advance⟩
    next => cases hleast

/-! ## Sequences and records -/

theorem isFactor_array {close : Word} {vs : List Value} (hw : w.token = .mark .openBracket)
    (h : Items d ws vs) (hclose : close.token = .mark .closeBracket) :
    IsFactor d.deeper (w :: (ws ++ [close])) (.sequence .array vs .none) := by
  refine isFactor_of_front hw rfl (by simp) fun n k p gap rest _ hp => ?_
  rw [List.append_assoc, List.singleton_append] at hp
  show Gives _ _ (array _ p)
  rw [array, here_bind, bump_bind]
  refine (h.gives rfl hclose n hp.advance).bind ?_
  rintro us q ⟨hus, hq⟩
  rw [expect_bind hq, front_cons, if_pos hclose]
  exact ⟨by rw [Value.bare, Value.bareItems_eq_map, hus], hq.advance⟩

/-- The kind of a record whose fields end with a comma or not. -/
def recordKind (trailing : Bool) (fields : Entries Value) : RecordKind :=
  if trailing || fields.isEmpty then .map else .struct

/-- Fields between braces are a map or a struct. -/
theorem isFactor_record {close : Word} {fields : Entries Value} {trailing : Bool}
    (hw : w.token = .mark .openBrace) (h : Fields d false ws fields trailing)
    (hclose : close.token = .mark .closeBrace) : IsFactor d.deeper (w :: (ws ++ [close]))
      (.record (recordKind trailing (Entries.ofList fields)) (Entries.ofList fields) .none) := by
  refine isFactor_of_front hw rfl (by simp) fun n k p gap rest _ hp => ?_
  rw [List.append_assoc, List.singleton_append] at hp
  show Gives _ _ (record _ p)
  rw [record, here_bind, bump_bind, remaining_bind hp.advance]
  refine (h.gives hclose n hp.advance rfl).bind ?_
  rintro r q ⟨hr, ht, hq⟩
  obtain ⟨read, trailing'⟩ := r
  dsimp only at hr ht ⊢
  rw [expect_bind hq, front_cons, if_pos hclose]
  refine ⟨?_, hq.advance⟩
  have hempty : read.isEmpty = (Entries.ofList fields).isEmpty := by
    rw [← hr, Value.bareFields_eq_map, List.isEmpty_map]
  rw [Value.bare, hr, recordKind, ← hempty, ht]

/-- An empty set. -/
theorem isFactor_emptySet {close : Word} (hw : w.token = .mark .openParen)
    (hclose : close.token = .mark .closeParen) :
    IsFactor d.deeper [w, close] (.sequence .set [] .none) := by
  refine isFactor_of_front hw rfl (by simp) fun n k p gap rest _ hp => ?_
  show Gives _ _ (groupOrSet _ p)
  rw [groupOrSet, here_bind, bump_bind, eat_bind hp.advance, List.singleton_append, front_cons,
    if_pos hclose, if_pos rfl]
  exact ⟨rfl, hp.advance.advance⟩

/-- What comes after the parenthesis that opens a set or an expression in parentheses. -/
theorem groupOrSet_run {ws' : List Word} (h : IsExpression d ws v)
    (expression : Grammar Value) {gap : List Char} (hp : p.Faces k ({ w with gap } :: (ws ++ ws'))) :
    groupOrSet expression p = (do
      let first ← expression
      if ← eat .comma then
        let more ← items expression .closeParen
        expect .closeParen .setClose
        return .sequence .set (first :: more) (p.current.span p.file)
      else
        expect .closeParen .groupClose
        return first : Grammar Value) p.advance := by
  have hfront : front (ws ++ ws') ≠ .mark .closeParen := by
    rw [front_append (ne_nil_of_opens h.opens)]
    exact front_ne_of_opens rfl h.opens
  rw [groupOrSet, here_bind, bump_bind, eat_bind hp.advance, if_neg hfront, if_neg (by simp)]

/-- An expression between parentheses is a factor, and has the same value. -/
theorem isFactor_group {close : Word} (hw : w.token = .mark .openParen) (h : IsExpression d ws v)
    (hclose : close.token = .mark .closeParen) : IsFactor d.deeper (w :: (ws ++ [close])) v := by
  refine isFactor_of_front hw rfl (by simp) fun n k p gap rest _ hp => ?_
  rw [List.append_assoc, List.singleton_append] at hp
  show Gives _ _ (groupOrSet _ p)
  rw [groupOrSet_run h _ hp]
  refine (h.gives n (ends_of_closes rfl hclose) hp.advance).bind ?_
  rintro u q ⟨hu, hq⟩
  rw [eat_bind hq, front_cons, hclose, if_neg (by simp), if_neg (by simp), expect_bind hq, front_cons,
    if_pos hclose]
  exact ⟨hu, hq.advance⟩

/-- A set with its first element and a comma. -/
theorem isFactor_set {comma close : Word} {ws' : List Word} {vs : List Value}
    (hw : w.token = .mark .openParen) (h : IsExpression d ws v) (hcomma : comma.token = .mark .comma)
    (hitems : Items d ws' vs) (hclose : close.token = .mark .closeParen) :
    IsFactor d.deeper (w :: (ws ++ comma :: (ws' ++ [close]))) (.sequence .set (v :: vs) .none) := by
  refine isFactor_of_front hw rfl (by simp) fun n k p gap rest _ hp => ?_
  simp only [List.append_assoc, List.cons_append, List.nil_append] at hp
  show Gives _ _ (groupOrSet _ p)
  rw [groupOrSet_run h _ hp]
  refine (h.gives n (ends_of_comma hcomma) hp.advance).bind ?_
  rintro u q ⟨hu, hq⟩
  rw [eat_bind hq, front_cons, if_pos hcomma, if_pos rfl]
  refine (hitems.gives rfl hclose n hq.advance).bind ?_
  rintro us q' ⟨hus, hq'⟩
  rw [expect_bind hq', front_cons, if_pos hclose]
  exact ⟨by rw [Value.bare, Value.bareItems, Value.bareItems_eq_map, hu, hus], hq'.advance⟩

/-! ## Colors -/

/-- Words without gaps that add up to the digits of a color. -/
inductive HexPieces : Nat → String → List Word → String → Prop
  | stop (n : Nat) (digits : String) : HexPieces n digits [] digits
  | more {n : Nat} {digits text all : String} {w : Word} {ws : List Word}
      (hsize : digits.utf8ByteSize < 6) (hgap : w.gap = []) (hw : piece? w.token = some text)
      (h : HexPieces n (digits ++ text) ws all) : HexPieces (n + 1) digits (w :: ws) all

/-- The next piece of a color counts if it stands right behind the others and six digits are not reached. -/
theorem hexDigits_succ (n : Nat) (digits : String) (p : Parser) :
    hexDigits (n + 1) digits p =
      match if digits.utf8ByteSize < 6 && p.isAdjacent then piece? p.current.token else none with
      | some text => hexDigits n (digits ++ text) p.advance
      | none => .ok digits p := by
  have hrun : hexDigits (n + 1) digits p =
      (match if digits.utf8ByteSize < 6 && p.isAdjacent then piece? p.current.token else none with
        | some text => (do bump; hexDigits n (digits ++ text) : Grammar String)
        | none => pure digits) p := rfl
  rw [hrun]
  cases (if digits.utf8ByteSize < 6 && p.isAdjacent then piece? p.current.token else none) <;> rfl

/-- **The pieces of a color are joined**, and reading stops behind the last one. -/
theorem hexDigits_run {n : Nat} {digits all : String} (h : HexPieces n digits ws all)
    (hstops : Stops rest) (hp : p.Faces k (ws ++ rest)) :
    ∃ q, hexDigits n digits p = .ok all q ∧ q.Faces k rest := by
  induction h generalizing p with
  | stop n digits =>
    rw [List.nil_append] at hp
    cases n with
    | zero => exact ⟨p, rfl, hp⟩
    | succ n =>
      refine ⟨p, ?_, hp⟩
      -- nothing is taken behind the last piece: there is a gap, or what follows is no piece of a color
      have hnone : (if digits.utf8ByteSize < 6 && p.isAdjacent then piece? p.current.token else none)
          = none := by
        rw [hp.token]
        cases rest with
        | nil => exact ite_self _
        | cons w ws =>
          rw [hp.isAdjacent, front_cons]
          cases hpiece : piece? w.token with
          | none => exact ite_self _
          | some text =>
            have hgap := hstops.piece w ws rfl (by rw [hpiece]; rfl)
            rw [if_neg (by simp [hgap])]
      rw [hexDigits_succ, hnone]
  | @more n digits text all w ws hsize hgap hw _ ih =>
    rw [List.cons_append] at hp
    obtain ⟨q, hrun, hq⟩ := ih hp.advance
    refine ⟨q, ?_, hq⟩
    rw [hexDigits_succ, hp.token, hp.isAdjacent, if_pos (by simp [hsize, hgap]), front_cons, hw]
    exact hrun

/-- The pieces of a color, behind their mark, are a color. -/
theorem isFactor_hexColor {digits : String} {c : Color} (hw : w.token = .mark .hash)
    (h : HexPieces 6 "" ws digits) (hc : colorOf? digits = some c) :
    IsFactor d.deeper (w :: ws) (.atom (.color c) .none) := by
  refine isFactor_of_front hw rfl (by simp) fun n k p gap rest hstops hp => ?_
  obtain ⟨q, hrun, hq⟩ := hexDigits_run h hstops hp.advance
  show Gives _ _ (hexColor p)
  rw [hexColor, here_bind, bump_bind, bind_of_ok hrun, hc]
  exact ⟨rfl, hq⟩

/-! ## Dotted names -/

/-- The name that a token is. -/
def name? : Token → Option String
  | .ident name => some name
  | _ => none

/-- Points with parts behind them that continue a dotted text. -/
inductive DottedParts (part? : Token → Option String) : String → List Word → String → Prop
  | nil (text : String) : DottedParts part? text [] text
  | cons {text part all : String} {point w : Word} {ws : List Word}
      (hpoint : point.token = .mark .point) (hw : part? w.token = some part)
      (h : DottedParts part? (text ++ "." ++ part) ws all) :
      DottedParts part? text (point :: w :: ws) all

theorem ident_of_name? {t : Token} {name : String} (h : name? t = some name) : t = .ident name := by
  unfold name? at h
  split at h
  next => rw [Option.some.inj h]
  next => cases h

/-- **The parts of a key are joined with points**, and reading stops where no point follows. -/
theorem keyParts_run {bound : Nat} {key all : String} (h : DottedParts name? key ws all)
    (hrest : front rest ≠ .mark .point) (hbound : ws.length ≤ bound) (hp : p.Faces k (ws ++ rest)) :
    ∃ q, keyParts bound key p = .ok all q ∧ q.Faces k rest := by
  induction h generalizing bound p with
  | nil key =>
    rw [List.nil_append] at hp
    cases bound with
    | zero => exact ⟨p, rfl, hp⟩
    | succ bound =>
      refine ⟨p, ?_, hp⟩
      rw [keyParts, eat_bind hp, if_neg hrest]
      rfl
  | @cons key part all point w ws hpoint hw _ ih =>
    obtain ⟨bound, rfl⟩ := Nat.exists_eq_succ_of_ne_zero (Nat.ne_zero_of_lt hbound)
    rw [List.cons_append, List.cons_append] at hp
    rw [List.length_cons, List.length_cons] at hbound
    obtain ⟨q, hrun, hq⟩ := ih (show ws.length ≤ bound by omega) hp.advance.advance
    refine ⟨q, ?_, hq⟩
    rw [keyParts, eat_bind hp, front_cons, if_pos hpoint, if_pos rfl,
      expectName_bind hp.advance (ident_of_name? hw)]
    exact hrun

/-- Goes on with a dotted name, if a part follows. -/
def nextPart (n : Nat) (name : String) : Option String → Grammar String
  | some text => do bump; bump; nameParts n (name ++ "." ++ text)
  | none => return name

/-- The next part of a name is looked for behind a point. -/
theorem nameParts_eq (n : Nat) (name : String) : nameParts (n + 1) name = get >>= fun p =>
    nextPart n name (if p.current.token = .mark .point then piece? p.second else none) := by
  funext p
  rw [nameParts, get_bind, get_bind]
  by_cases hpoint : p.current.token = .mark .point
  · rw [if_pos hpoint, if_pos hpoint]
    cases p.second <;> rfl
  · rw [if_neg hpoint, if_neg hpoint]
    rfl

/-- A part of a name counts if it stands behind a point. -/
theorem nameParts_succ (hp : p.Faces k ws) (n : Nat) (name : String) :
    nameParts (n + 1) name p =
      match if front ws = .mark .point then piece? (front ws.tail) else none with
      | some text => nameParts n (name ++ "." ++ text) p.advance.advance
      | none => .ok name p := by
  rw [nameParts_eq, get_bind, hp.token, hp.second]
  cases (if front ws = .mark .point then piece? (front ws.tail) else none) <;> rfl

/-- **The parts of a name are joined with points**, and reading stops where no point follows. -/
theorem nameParts_run {bound : Nat} {name all : String} (h : DottedParts piece? name ws all)
    (hrest : front rest ≠ .mark .point) (hbound : ws.length ≤ bound) (hp : p.Faces k (ws ++ rest)) :
    ∃ q, nameParts bound name p = .ok all q ∧ q.Faces k rest := by
  induction h generalizing bound p with
  | nil name =>
    rw [List.nil_append] at hp
    cases bound with
    | zero => exact ⟨p, rfl, hp⟩
    | succ bound =>
      refine ⟨p, ?_, hp⟩
      rw [nameParts_succ hp, if_neg hrest]
  | @cons name part all point w ws hpoint hw _ ih =>
    obtain ⟨bound, rfl⟩ := Nat.exists_eq_succ_of_ne_zero (Nat.ne_zero_of_lt hbound)
    rw [List.cons_append, List.cons_append] at hp
    rw [List.length_cons, List.length_cons] at hbound
    obtain ⟨q, hrun, hq⟩ := ih (show ws.length ≤ bound by omega) hp.advance.advance
    refine ⟨q, ?_, hq⟩
    rw [nameParts_succ hp, front_cons, if_pos hpoint, List.tail_cons, front_cons, hw]
    exact hrun

/-! ## References -/

theorem isFactor_macro {name : Word} {target : String} (hw : w.token = .mark .atSign)
    (hname : name.token = .ident target) :
    IsFactor d.deeper [w, name] (.atom (.reference ⟨.macroName, target⟩) .none) := by
  refine isFactor_of_front hw rfl (by simp) fun n k p gap rest _ hp => ?_
  rw [List.singleton_append] at hp
  show Gives _ _ (atReference p)
  rw [atReference, here_bind, bump_bind, eat_bind hp.advance, front_cons, hname, if_neg (by simp),
    if_neg (by simp), expectName_bind hp.advance hname]
  exact ⟨rfl, hp.advance.advance⟩

/-- Two names in braces refer to a property of a section. -/
theorem isFactor_property {brace first point second close : Word} {name key : String}
    (hw : w.token = .mark .atSign) (hbrace : brace.token = .mark .openBrace)
    (hfirst : first.token = .ident name) (hpoint : point.token = .mark .point)
    (hsecond : second.token = .ident key) (hclose : close.token = .mark .closeBrace) :
    IsFactor d.deeper [w, brace, first, point, second, close]
      (.atom (.reference ⟨.crossSection, name ++ "." ++ key⟩) .none) := by
  refine isFactor_of_front hw rfl (by simp) fun n k p gap rest _ hp => ?_
  simp only [List.cons_append, List.nil_append] at hp
  have hp₁ := hp.advance.advance
  show Gives _ _ (atReference p)
  rw [atReference, here_bind, bump_bind, eat_bind hp.advance, front_cons, if_pos hbrace, if_pos rfl,
    expectName_bind hp₁ hfirst]
  dsimp only
  rw [expect_bind hp₁.advance, front_cons, if_pos hpoint, expectName_bind hp₁.advance.advance hsecond]
  dsimp only
  rw [expect_bind hp₁.advance.advance.advance, front_cons, if_pos hclose]
  exact ⟨rfl, hp₁.advance.advance.advance.advance⟩

/-- A name in braces refers to a variable of the environment. -/
theorem isFactor_environment {brace name close : Word} {target : String}
    (hw : w.token = .mark .dollar) (hbrace : brace.token = .mark .openBrace)
    (hname : name.token = .ident target) (hclose : close.token = .mark .closeBrace) :
    IsFactor d.deeper [w, brace, name, close] (.atom (.reference ⟨.environment, target⟩) .none) := by
  refine isFactor_of_front hw rfl (by simp) fun n k p gap rest _ hp => ?_
  simp only [List.cons_append, List.nil_append] at hp
  have hp₁ := hp.advance.advance
  show Gives _ _ (environmentReference p)
  rw [environmentReference, here_bind, bump_bind, expect_bind hp.advance, front_cons, if_pos hbrace,
    expectName_bind hp₁ hname]
  dsimp only
  rw [expect_bind hp₁.advance, front_cons, if_pos hclose]
  exact ⟨rfl, hp₁.advance.advance⟩

/-- A key in braces refers to a text that is translated. -/
theorem isFactor_localization {brace first close : Word} {name key : String}
    (hw : w.token = .mark .percent) (hbrace : brace.token = .mark .openBrace)
    (hfirst : first.token = .ident name) (h : DottedParts name? name ws key)
    (hclose : close.token = .mark .closeBrace) :
    IsFactor d.deeper (w :: brace :: first :: (ws ++ [close]))
      (.atom (.reference ⟨.localization, key⟩) .none) := by
  refine isFactor_of_front hw rfl (by simp) fun n k p gap rest _ hp => ?_
  simp only [List.cons_append, List.append_assoc, List.nil_append] at hp
  have hp₁ := hp.advance.advance
  show Gives _ _ (localizationReference p)
  rw [localizationReference, here_bind, bump_bind, expect_bind hp.advance, front_cons, if_pos hbrace,
    expectName_bind hp₁ hfirst]
  dsimp only
  have hbound : ws.length ≤ (ws ++ close :: rest).length := by
    rw [List.length_append]
    omega
  obtain ⟨q, hrun, hq⟩ := keyParts_run h (by rw [front_cons, hclose]; simp) hbound hp₁.advance
  rw [remaining_bind hp₁.advance, bind_of_ok hrun, expect_bind hq, front_cons, if_pos hclose]
  exact ⟨rfl, hq.advance⟩

/-! ## Constructors -/

/-- Whether a value is written as an integer does not depend on places. -/
theorem literalInt?_bare (v : Value) : literalInt? v.bare = literalInt? v := by
  induction v using Value.induction with
  | atom a span => cases a <;> rfl
  | neg v span ih => rw [Value.bare, literalInt?, literalInt?, ih]
  | _ => rfl

/-- Whether a value is written as a number does not depend on places. -/
theorem literalNumber?_bare (v : Value) : literalNumber? v.bare = literalNumber? v := by
  induction v using Value.induction with
  | atom a span => cases a <;> rfl
  | neg v span ih => rw [Value.bare, literalNumber?, literalNumber?, ih]
  | _ => rfl

/-- Whether a value is a channel does not depend on places. -/
theorem channel?_bare (v : Value) : channel? v.bare = channel? v := by
  rw [channel?, literalInt?_bare, channel?]

/-- Whether a value is the text of a path does not depend on places. -/
theorem pathText?_bare (v : Value) : pathText? v.bare = pathText? v := by
  cases v with
  | atom a span => cases a <;> rfl
  | _ => rfl

/-- Arguments fit or not whatever their places. -/
theorem arguments_ok {α : Type} {name allowed : String} {read? : Value → Option α} {vs : List Value}
    {as : List α} : arguments name allowed read? vs = .ok as ↔ vs.map read? = as.map some := by
  induction vs generalizing as with
  | nil =>
    rw [arguments]
    cases as <;> simp
  | cons v vs ih =>
    rw [arguments, List.map_cons]
    cases hv : read? v with
    | none => cases as <;> simp
    | some a =>
      -- the first argument fits; the others fit or not by the induction
      cases hvs : arguments name allowed read? vs with
      | error fault =>
        cases as with
        | nil => simp [Except.map]
        | cons b bs =>
          refine ⟨fun h => by simp [Except.map] at h, fun h => ?_⟩
          rw [ih.mpr (List.cons.inj h).2] at hvs
          cases hvs
      | ok bs =>
        have hbs := ih.mp hvs
        constructor
        · intro h
          cases h
          rw [List.map_cons, hbs]
        · intro h
          cases as with
          | nil => cases h
          | cons b cs =>
            obtain ⟨hb, hcs⟩ := List.cons.inj h
            rw [hbs] at hcs
            have hinjective : ∀ a b : α, some a = some b → a = b := fun _ _ => Option.some.inj
            rw [Option.some.inj hb, (List.map_inj_right hinjective).mp hcs]
            rfl

/-- Arguments that differ in their places only are read alike. -/
theorem arguments_congr {α : Type} {name allowed : String} {read? : Value → Option α}
    (hread : ∀ v, read? v.bare = read? v) {vs vs' : List Value}
    (h : vs'.map Value.bare = vs.map Value.bare) {as : List α}
    (hvs : arguments name allowed read? vs = .ok as) : arguments name allowed read? vs' = .ok as := by
  have hmap : ∀ us : List Value, us.map read? = (us.map Value.bare).map read? := by
    intro us
    rw [List.map_map]
    exact List.map_congr_left fun v _ => (hread v).symm
  rw [arguments_ok] at hvs ⊢
  rw [hmap, h, ← hmap, hvs]

/-- The constructor makes an atom of its arguments, and the same one of arguments at other places. -/
def MakesAtom (name : String) (vs : List Value) (span : Span) (v : Value) : Prop :=
  ∃ a, v = .atom a span ∧ ∀ vs' span', vs'.map Value.bare = vs.map Value.bare →
    construct name vs' span' = .ok (.atom a span')

/-- Lists that differ in places only are equally long. -/
theorem length_of_bare {vs vs' : List Value} (h : vs'.map Value.bare = vs.map Value.bare) :
    vs'.length = vs.length := by
  rw [← vs'.length_map (f := Value.bare), h, List.length_map]

/-- A color is made of its arguments, wherever these stand. -/
theorem makesAtom_color {vs : List Value} {span : Span} {v : Value}
    (hv : construct "Color" vs span = .ok v) : MakesAtom "Color" vs span v := by
  unfold MakesAtom construct at *
  simp only [↓reduceIte] at hv ⊢
  split at hv
  next hcount =>
    obtain ⟨as, has, hv⟩ := except_bind_eq_ok.mp hv
    split at hv
    · cases hv
      refine ⟨_, rfl, fun vs' span' h => ?_⟩
      rw [length_of_bare h, if_pos hcount, arguments_congr channel?_bare h has]
      rfl
    · cases hv
      refine ⟨_, rfl, fun vs' span' h => ?_⟩
      rw [length_of_bare h, if_pos hcount, arguments_congr channel?_bare h has]
      rfl
    · cases hv
  next => cases hv

/-- A coordinate is made of its arguments, wherever these stand. -/
theorem makesAtom_coord {vs : List Value} {span : Span} {v : Value}
    (hv : construct "Coord" vs span = .ok v) : MakesAtom "Coord" vs span v := by
  have hcolor : "Coord" ≠ "Color" := by decide
  unfold MakesAtom construct at *
  simp only [if_neg hcolor, ↓reduceIte] at hv ⊢
  split at hv
  next hcount =>
    obtain ⟨as, has, hv⟩ := except_bind_eq_ok.mp hv
    split at hv
    · cases hv
      refine ⟨_, rfl, fun vs' span' h => ?_⟩
      rw [length_of_bare h, if_pos hcount, arguments_congr literalNumber?_bare h has]
      rfl
    · cases hv
      refine ⟨_, rfl, fun vs' span' h => ?_⟩
      rw [length_of_bare h, if_pos hcount, arguments_congr literalNumber?_bare h has]
      rfl
    · cases hv
  next => cases hv

/-- A path is made of its argument, wherever that stands. -/
theorem makesAtom_path {vs : List Value} {span : Span} {v : Value}
    (hv : construct "Path" vs span = .ok v) : MakesAtom "Path" vs span v := by
  have hcolor : "Path" ≠ "Color" := by decide
  have hcoord : "Path" ≠ "Coord" := by decide
  unfold MakesAtom construct at *
  simp only [if_neg hcolor, if_neg hcoord, ↓reduceIte] at hv ⊢
  split at hv
  next u =>
    obtain ⟨as, has, hv⟩ := except_bind_eq_ok.mp hv
    split at hv
    · cases hv
      refine ⟨_, rfl, fun vs' span' h => ?_⟩
      obtain ⟨u', rfl⟩ := List.length_eq_one_iff.mp (length_of_bare h)
      dsimp only
      rw [arguments_congr pathText?_bare h has]
      rfl
    · cases hv
  next => cases hv

/-- What a constructor makes: an atom that does not depend on the places of the arguments, or the
    sequence of the arguments. -/
theorem construct_cases {name : String} {vs : List Value} {span : Span} {v : Value}
    (hv : construct name vs span = .ok v) :
    MakesAtom name vs span v ∨ ∃ kind, v = .sequence kind vs span ∧ ∀ vs' span',
      construct name vs' span' = .ok (.sequence kind vs' span') := by
  by_cases hcolor : name = "Color"
  · subst hcolor
    exact .inl (makesAtom_color hv)
  by_cases hcoord : name = "Coord"
  · subst hcoord
    exact .inl (makesAtom_coord hv)
  by_cases hpath : name = "Path"
  · subst hpath
    exact .inl (makesAtom_path hv)
  -- no name is left but those of the sequences
  right
  unfold construct at hv ⊢
  simp only [if_neg hcolor, if_neg hcoord, if_neg hpath] at hv ⊢
  split at hv
  next hlist =>
    cases hv
    exact ⟨_, rfl, fun _ _ => if_pos hlist⟩
  next hlist =>
    simp only [if_neg hlist]
    split at hv
    next harray =>
      cases hv
      exact ⟨_, rfl, fun _ _ => if_pos harray⟩
    next harray =>
      simp only [if_neg harray]
      split at hv
      next hset =>
        cases hv
        exact ⟨_, rfl, fun _ _ => if_pos hset⟩
      next => cases hv

/-- **A constructor makes the same value** of arguments that differ in their places only. -/
theorem construct_congr {name : String} {vs vs' : List Value} {span : Span} (span' : Span) {v : Value}
    (h : vs'.map Value.bare = vs.map Value.bare) (hv : construct name vs span = .ok v) :
    ∃ v', construct name vs' span' = .ok v' ∧ v'.bare = v.bare := by
  rcases construct_cases hv with ⟨a, rfl, hmade⟩ | ⟨kind, rfl, hmade⟩
  · exact ⟨_, hmade vs' span' h, rfl⟩
  · refine ⟨_, hmade vs' span', ?_⟩
    rw [Value.bare, Value.bare, Value.bareItems_eq_map, Value.bareItems_eq_map, h]

/-- Arguments between parentheses, behind the name of a constructor, are what that makes of them. -/
theorem isFactor_constructor {opening close : Word} {name : String} {vs us : List Value}
    {span : Span} {u : Value} (hw : w.token = .ident name) (hname : name ≠ "Dyna")
    (hopening : opening.token = .mark .openParen) (h : Items d ws vs)
    (hclose : close.token = .mark .closeParen) (hus : us.map Value.bare = vs)
    (hu : construct name us span = .ok u) : IsFactor d.deeper (w :: opening :: (ws ++ [close])) u.bare := by
  refine isFactor_of_front hw rfl (by simp) fun n k p gap rest _ hp => ?_
  simp only [List.cons_append, List.append_assoc, List.nil_append] at hp
  show Gives _ _ (named _ name p)
  rw [named, here_bind, bump_bind, sees_bind hp.advance, front_cons, hopening, if_pos (by simp),
    constructor, if_neg hname, bump_bind]
  refine (h.gives rfl hclose n hp.advance.advance).bind ?_
  rintro us' q ⟨hus', hq⟩
  rw [expect_bind hq, front_cons, if_pos hclose]
  obtain ⟨u', hu', hbare⟩ := construct_congr (p.current.span p.file) (hus'.trans hus.symm) hu
  rw [hu']
  exact ⟨hbare, hq.advance⟩

/-- A deferred expression is the text between its parentheses. -/
theorem isFactor_dyna {opening close w' : Word} (hw : w.token = .ident "Dyna")
    (hopening : opening.token = .mark .openParen) (h : IsExpression d (w' :: ws) v)
    (hclose : close.token = .mark .closeParen) : IsFactor d.deeper (w :: opening :: (w' :: ws ++ [close]))
      (.atom (.dyna (String.ofList (Text.trim (w'.text ++ written ws)))) .none) := by
  refine isFactor_of_front hw rfl (by simp) fun n k p gap rest _ hp => ?_
  rw [List.cons_append, List.append_assoc, List.singleton_append] at hp
  have hp₂ := hp.advance.advance
  have hfront : front (w' :: ws ++ close :: rest) ≠ .mark .closeParen := by
    rw [front_append (List.cons_ne_nil _ _)]
    exact front_ne_of_opens rfl h.opens
  show Gives _ _ (named _ "Dyna" p)
  rw [named, here_bind, bump_bind, sees_bind hp.advance, front_cons, hopening, if_pos (by simp),
    constructor, if_pos rfl, dyna, bump_bind, sees_bind hp₂,
    if_neg (by simpa only [decide_eq_true_eq] using hfront)]
  dsimp only
  rw [get_bind]
  refine (h.gives n (ends_of_closes rfl hclose) hp₂).bind ?_
  rintro u q ⟨_, hq⟩
  rw [get_bind, expect_bind hq, front_cons, if_pos hclose, get_bind]
  have hslice := hp₂.slice hq
  have hsource : q.advance.source = p.advance.advance.source :=
    hq.advance.source.trans hp₂.source.symm
  refine ⟨?_, hq.advance⟩
  rw [hsource, hslice]
  rfl

/-- A name on its own, perhaps with points in it, is a text. -/
theorem isFactor_name {first name : String} (hw : w.token = .ident first)
    (h : DottedParts piece? first ws name) : IsFactor d.deeper (w :: ws) (.atom (.string name) .none) := by
  refine isFactor_of_front hw rfl (by simp) fun n k p gap rest hstops hp => ?_
  have hparen : front (ws ++ rest) ≠ .mark .openParen := by
    cases h with
    | nil => exact hstops.paren
    | cons hpoint => rw [List.cons_append, front_cons, hpoint]; simp
  have hbound : ws.length ≤ (ws ++ rest).length := by
    rw [List.length_append]
    omega
  obtain ⟨q, hrun, hq⟩ := nameParts_run h hstops.point hbound hp.advance
  show Gives _ _ (named _ first p)
  rw [named, here_bind, bump_bind, sees_bind hp.advance, if_neg (by simpa using hparen),
    remaining_bind hp.advance, bind_of_ok hrun, sees_bind hq, if_neg (by simpa using hstops.paren)]
  exact ⟨rfl, hq⟩

end Yini.Grammar
