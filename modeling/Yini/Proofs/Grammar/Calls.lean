import Yini.Proofs.Grammar.Checked

/-!
A parser stays inside its lexemes and its source, whatever they are and however often it is called.

The rules of a schema and those of documents follow the rules of the grammar as expressions do.  What
this says of one call (`ParseCall.follows`) goes on from call to call (`parser_calls_stay_inside`).
-/

namespace Yini.Roll

variable {k : Roll} {d lo hi : Nat} {t : Tape} {p : Parser}

/-- Whether a bound follows is seen without a crash. -/
theorem At.seesBound_run (h : k.At d lo t p) (word : String) : Checked.seesBound word t
    = .ok (decide ((word = "min" ∨ word = "max") ∧ p.second = .mark .assign)) t := by
  rw [Checked.seesBound]
  by_cases hword : word = "min" ∨ word = "max"
  · rw [if_pos hword, bind_of_ok h.second_run]
    simp only [hword, true_and]
    rfl
  · rw [if_neg hword, decide_eq_false fun h => hword h.1]
    rfl

section Rules

variable (hk : k.Lies)
include hk

/-! ## Rules of a schema -/

/-- The type of the elements follows its rule. -/
theorem follows_elementType (hlo : 0 < lo) (name : String) :
    k.Follows d lo lo (Checked.elementType name) (Grammar.elementType name) := by
  intro t p hp
  have ht : 0 < t.position := Nat.lt_of_lt_of_le hlo hp.reached
  rw [Checked.elementType, Grammar.elementType, bind_assoc, hp.sees_bind, Grammar.sees_eq, get_bind]
  by_cases hopen : p.current.token = .mark .openBracket
  · rw [decide_eq_true hopen, if_pos rfl, bind_of_ok (hp.isAdjacent_run ht), Bool.true_and]
    cases p.isAdjacent with
    | true =>
      refine FollowsOn.bump_bind hk Token.noConfusion (fun _ _ => ?_) t p hp hopen
      refine (follows_expectName hk _).bind fun element => (follows_expect hk _ _).bind fun _ => ?_
      exact follows_return (by omega) _
    | false => exact follows_pure name t p hp
  · rw [decide_eq_false hopen, Bool.false_and]
    exact follows_pure name t p hp

/-- The name of a bound and the mark behind it are taken, and the value follows. -/
theorem follows_bound (hp : k.At 0 lo t p) (hne : p.current.token ≠ .finish)
    (hassign : p.second = .mark .assign) (f : Value → Rule) : k.Ends 0 (lo + 1) t
      ((Checked.bump >>= fun _ => Checked.bump >>= fun _ => Checked.expression >>= fun v => pure (f v)) t)
      ((Grammar.bump >>= fun _ => Grammar.expression >>= fun v => pure (f v)) p.advance) := by
  have hu := hp.advance_on hk hne
  have hnext : p.advance.current.token = .mark .assign :=
    (hp.second_eq (hp.lt hk hne)).symm.trans hassign
  rw [hp.bump_bind hne]
  have hvalue : k.FollowsOn (.mark .assign) 0 (lo + 1) (lo + 1)
      (Checked.bump >>= fun _ => Checked.expression >>= fun v => pure (f v))
      (Grammar.bump >>= fun _ => Grammar.expression >>= fun v => pure (f v)) :=
    .bump_bind hk Token.noConfusion fun _ _ => (follows_expression hk _).bind fun v =>
      follows_return (by omega) _
  exact (hvalue _ _ hu hnext).since (Nat.le_succ t.position)

/-- A mark of a rule follows its rule, and takes a lexeme. -/
theorem follows_ruleMark (r : Rule) :
    k.Follows 0 lo (lo + 1) (Checked.ruleMark r) (Grammar.ruleMark r) := by
  refine .peek_bind fun s => ?_
  cases s with
  | ident word =>
    intro t p hp hs
    have hne : p.current.token ≠ .finish := hs ▸ Token.noConfusion
    have hu := hp.advance_on hk hne
    dsimp only
    rw [get_bind, Grammar.bump_bind]
    by_cases he : word = "e"
    · rw [if_pos he, if_pos he, hp.bump_bind hne]
      exact .ok hu (Nat.le_succ _)
    rw [if_neg he, if_neg he, bind_of_ok (hp.seesBound_run word)]
    -- `min` and `max` are bounds only before an equals sign, and names of types otherwise
    by_cases hbound : (word = "min" ∨ word = "max") ∧ p.second = .mark .assign
    · rw [decide_eq_true hbound, if_pos rfl]
      obtain ⟨hword, hassign⟩ := hbound
      have hends := follows_bound hk hp hne hassign
      by_cases hmin : word = "min"
      · rw [if_pos ⟨hmin, hassign⟩]
        simp only [if_pos hmin]
        exact hends fun v => { r with lower := some v }
      · have hmax : word = "max" := hword.resolve_left hmin
        rw [if_neg fun h => hmin h.1, if_pos ⟨hmax, hassign⟩]
        simp only [if_neg hmin]
        exact hends fun v => { r with upper := some v }
    · have hmin : ¬(word = "min" ∧ p.second = .mark .assign) := fun h => hbound ⟨.inl h.1, h.2⟩
      have hmax : ¬(word = "max" ∧ p.second = .mark .assign) := fun h => hbound ⟨.inr h.1, h.2⟩
      rw [decide_eq_false hbound, if_neg Bool.false_ne_true, if_neg hmin, if_neg hmax,
        hp.takeName_bind hs]
      have htype := follows_elementType hk (Nat.succ_pos lo) word _ _ hu
      refine (Ends.bind htype fun name v q hv _ => ?_).since (Nat.le_succ _)
      exact .ok hv (Nat.le_refl _)
  | mark m =>
    cases m with
    | bang | question | tilde => exact .bump_bind hk Token.noConfusion fun _ _ => follows_pure _
    | assign =>
      refine .bump_bind hk Token.noConfusion fun _ _ => (follows_expression hk _).bind fun v => ?_
      exact follows_return (by omega) _
    | _ => exact (follows_fail _).on
  | _ => exact (follows_fail _).on

/-- The marks of a rule follow theirs: each round takes a lexeme, so both loops have rounds enough. -/
theorem follows_ruleMarks : ∀ n m lo r, k.body.length < lo + n → k.body.length < lo + m →
    k.Follows 0 lo lo (Checked.ruleMarks n r) (Grammar.ruleMarks m r) := by
  refine follows_loop Checked.ruleMarks Grammar.ruleMarks fun n m lo r more => ?_
  refine (follows_ruleMark hk r).bind fun r => .eat_bind hk (more _ r (by omega)) ?_
  exact follows_return (Nat.le_succ _) _

theorem follows_rule (lo : Nat) : k.Follows 0 lo lo Checked.rule Grammar.rule := by
  refine .here_bind fun span => .rounds_bind fun lo' n m hlo hn hm => ?_
  refine (follows_ruleMarks hk n (m + 1) lo' {} hn (by omega)).bind fun r => ?_
  exact follows_return hlo _

/-! ## Documents -/

/-- The list of parents follows its rule, round by round. -/
theorem follows_parentsFrom : ∀ n m lo before, k.body.length < lo + n → k.body.length < lo + m →
    k.Follows d lo lo (Checked.parentsFrom n before) (Grammar.parentsFrom m before) := by
  refine follows_loop Checked.parentsFrom Grammar.parentsFrom fun n m lo before more => ?_
  refine (follows_expectName hk _).bind fun name => .eat_bind hk (more _ _ (by omega)) ?_
  exact follows_return (Nat.le_succ _) _

/-- The parents of a section follow their rule. -/
theorem follows_parents : k.Follows d lo lo Checked.parents Grammar.parents := by
  refine .eat_bind hk ?_ (follows_pure _)
  refine .rounds_bind fun lo' n m hlo hn hm => ?_
  exact (follows_parentsFrom hk n (m + 1) lo' [] hn (by omega)).mono (Nat.le_refl _) (by omega)

/-- The lines of a section follow their rule, round by round, if the values in them do. -/
theorem follows_bodyFrom {c : Checked Value} {g : Grammar Value} (h : ∀ lo, k.Follows 0 lo lo c g) :
    ∀ n m lo b, k.body.length < lo + n → k.body.length < lo + m →
      k.Follows 0 lo lo (Checked.bodyFrom c n b) (Grammar.bodyFrom g m b) := by
  refine follows_loop (Checked.bodyFrom c) (Grammar.bodyFrom g) fun n m lo b more => ?_
  refine .peek_bind fun s => ?_
  cases s with
  | finish => exact (follows_pure _).on
  | ident key =>
    refine .takeName_bind hk fun span => (follows_expect hk _ _).bind fun _ => (h _).bind fun v => ?_
    exact more _ _ (by omega)
  | mark x =>
    cases x with
    | openBracket => exact (follows_pure _).on
    | append =>
      refine .bump_bind hk Token.noConfusion fun _ _ => (follows_expression hk _).bind fun v => ?_
      exact more _ _ (by omega)
    | _ => exact (follows_fail _).on
  | _ => exact (follows_fail _).on

/-- A section follows its rule, if the values in it do. -/
theorem follows_sectionWith {c : Checked Value} {g : Grammar Value}
    (h : ∀ lo, k.Follows 0 lo lo c g) (name : String) (parents : List String) (span : Span) :
    k.Follows 0 lo lo (Checked.sectionWith c name parents span)
      (Grammar.sectionWith g name parents span) := by
  refine .rounds_bind fun lo' n m hlo hn hm => ?_
  refine (follows_bodyFrom hk h n (m + 1) lo' {} hn (by omega)).bind fun b => ?_
  exact follows_return hlo _

/-- A value of a section is an expression. -/
theorem follows_value (lo : Nat) : k.Follows 0 lo lo Checked.expression Grammar.expression :=
  (follows_expression hk lo).mono (Nat.le_refl _) (Nat.le_succ _)

/-- A section with a name of its own follows its rule. -/
theorem follows_namedSection (x : Document) :
    k.Follows 0 lo (lo + 1) (Checked.namedSection x) (Grammar.namedSection x) := by
  refine (follows_expectName hk _).bind fun name => (follows_expect hk _ _).bind fun _ => ?_
  refine (follows_parents hk).bind fun ps t p hp => ?_
  rw [get_bind, get_bind, hp.mode]
  cases p.schemaMode with
  | true =>
    refine Follows.bind (follows_sectionWith hk (follows_rule hk) _ _ _) (fun s => ?_) t p hp
    exact follows_return (by omega) _
  | false =>
    refine Follows.bind (follows_sectionWith hk (follows_value hk) _ _ _) (fun s => ?_) t p hp
    exact follows_return (by omega) _

/-- A section with a special name follows its rule. -/
theorem follows_specialSection (x : Document) :
    k.FollowsOn (.mark .hash) 0 lo (lo + 1) (Checked.specialSection x) (Grammar.specialSection x) := by
  refine .here_bind fun span => .bump_bind hk Token.noConfusion fun _ _ => ?_
  refine (follows_expectName hk _).bind fun name => (follows_expect hk _ _).bind fun _ => ?_
  dsimp only
  by_cases hmarker : name.1 = "schema" ∨ name.1 = "end_schema"
  · rw [if_pos hmarker, if_pos hmarker]
    have hturn : ∀ mode, k.Follows 0 (lo + 1 + 1 + 1) (lo + 1)
        ((modify ({ · with schemaMode := mode }) : Checked Unit) >>= fun _ => pure x)
        (modify ({ · with schemaMode := mode }) >>= fun _ => pure x) := fun mode =>
      (follows_turn mode).bind fun _ => follows_return (by omega) x
    refine .peek_bind fun s => ?_
    cases s with
    | finish => exact (hturn _).on
    | mark m =>
      cases m with
      | openBracket => exact (hturn _).on
      | _ => exact (follows_fail_bind _).on
    | _ => exact (follows_fail_bind _).on
  rw [if_neg hmarker, if_neg hmarker]
  by_cases hvalues : name.1 = "define" ∨ name.1 = "include"
  · rw [if_pos hvalues, if_pos hvalues]
    refine (follows_sectionWith hk (follows_value hk) _ _ _).bind fun s => ?_
    exact follows_return (by omega) _
  · rw [if_neg hvalues, if_neg hvalues]
    exact follows_throw _ _ _

/-- The sections of a document follow their rule, round by round. -/
theorem follows_sectionsFrom : ∀ n m lo x, k.body.length < lo + n → k.body.length < lo + m →
    k.Follows 0 lo lo (Checked.sectionsFrom n x) (Grammar.sectionsFrom m x) := by
  refine follows_loop Checked.sectionsFrom Grammar.sectionsFrom fun n m lo x more => ?_
  refine .peek_bind fun s => ?_
  cases s with
  | finish => exact (follows_pure _).on
  | mark y =>
    cases y with
    | openBracket =>
      refine .bump_bind hk Token.noConfusion fun _ _ => ?_
      have hmore := fun x => more (lo + 1 + 1) x (by omega)
      exact .sees_bind ((follows_specialSection hk x).bind hmore) ((follows_namedSection hk x).bind hmore)
    | _ => exact (follows_fail _).on
  | _ => exact (follows_fail _).on

/-- **A document follows its rule.** -/
theorem follows_document : k.Follows 0 lo lo Checked.document Grammar.document := by
  refine .rounds_bind fun lo' n m hlo hn hm => ?_
  exact (follows_sectionsFrom hk n (m + 1) lo' _ hn (by omega)).mono (Nat.le_refl _) hlo

end Rules

end Yini.Roll

/-! ## Calls -/

namespace Yini

/-- **A call follows**, where no level is open. -/
theorem ParseCall.follows {k : Roll} (hk : k.Lies) (c : ParseCall) (lo : Nat) :
    k.Follows 0 lo lo c.checked c.rule := by
  cases c with
  | expression => exact Roll.follows_value hk lo
  | document => exact Roll.follows_document hk

/-- A call gives a value or a fault of parsing, as the grammar does, and the position does not go back. -/
theorem ParseCall.ends {k : Roll} {t : Tape} {p : Parser} (hk : k.Lies) (c : ParseCall) (h : k.At 0 0 t p) :
    ((∃ a, c.checked t = .ok a (t.after c) ∧ c.rule p = .ok a (p.after c)) ∨
      ∃ cause found span, c.checked t = .error (.fault (.parse cause found span)) (t.after c) ∧
        c.rule p = .error (.parse cause found span) (p.after c)) ∧
      t.position ≤ (t.after c).position := by
  have hend := c.follows hk 0 t p h
  unfold Tape.after Parser.after
  generalize c.checked t = x at hend ⊢
  generalize c.rule p = y at hend ⊢
  cases hend with
  | ok _ ht => exact ⟨.inl ⟨_, rfl, rfl⟩, ht⟩
  | fault _ ht => exact ⟨.inr ⟨_, _, _, rfl, rfl⟩, ht⟩

/-- A call ends at the same place for both. -/
theorem Roll.At.after {k : Roll} {t : Tape} {p : Parser} (hk : k.Lies) (h : k.At 0 0 t p) (c : ParseCall) :
    k.At 0 0 (t.after c) (p.after c) := by
  have hend := c.follows hk 0 t p h
  unfold Tape.after Parser.after
  generalize c.checked t = x at hend ⊢
  generalize c.rule p = y at hend ⊢
  cases hend with
  | ok hu => exact hu
  | fault hu => exact hu

/-- **After any calls the parsers stand at the same lexeme.**  Each call leads from there to there again. -/
theorem Roll.at_foldl {k : Roll} (hk : k.Lies) (calls : List ParseCall) {t : Tape} {p : Parser}
    (h : k.At 0 0 t p) : k.At 0 0 (calls.foldl Tape.after t) (calls.foldl Parser.after p) := by
  induction calls generalizing t p with
  | nil => exact h
  | cons c calls ih => exact ih (h.after hk c)

/-- A tape and a parser of a source begin at the same place. -/
theorem Roll.at_ofSource {file : Option String} {source : String} {t : Tape}
    (h : Tape.ofSource file source = .ok t) :
    ∃ k p, Roll.Lies k ∧ Parser.ofSource file source = .ok p ∧ k.At 0 0 t p ∧
      t.lexemes = k.body ++ [k.finish] := by
  unfold Tape.ofSource at h
  split at h
  next lexemes finish hread =>
    cases h
    refine ⟨⟨file, source.toList, lexemes, finish⟩, .start file source.toList lexemes finish,
      lies_of_read hread, Parser.ofSource_of_read hread, ?_, rfl⟩
    exact ⟨rfl, rfl, rfl, rfl, rfl, rfl, rfl, rfl, Nat.le_refl _, Nat.zero_le _, rfl,
      fun _ h => absurd h (Nat.lt_irrefl _)⟩
  next => cases h

/-- **The calls on a parser stay inside its lexemes and its source.**  Let `c` be a call on a parser of
    any source, after any calls before it, some of which may have failed, and let `t` and `u` be the tapes
    before and after it.  The call gives what the grammar gives, which is a value or a fault of parsing:
    nothing is read or cut out of range or inside a character, no arm is taken that is meant never to be,
    and no loop goes on.  The position does not decrease and does not pass the end of the source, which is
    the last lexeme and no other.  As many levels are open as before the call. -/
theorem parser_calls_stay_inside {file : Option String} {source : String} {start : Tape}
    (h : Tape.ofSource file source = .ok start) (calls : List ParseCall) (c : ParseCall) :
    let t := calls.foldl Tape.after start
    let u := t.after c
    (∃ first, Parser.ofSource file source = .ok first ∧
      let p := calls.foldl Parser.after first
      (∃ a, c.checked t = .ok a u ∧ c.rule p = .ok a (p.after c)) ∨
        ∃ cause found span, c.checked t = .error (.fault (.parse cause found span)) u ∧
          c.rule p = .error (.parse cause found span) (p.after c)) ∧
      (∃ body finish, start.lexemes = body ++ [finish] ∧ finish.token = .finish ∧
        (∀ l ∈ body, l.token ≠ .finish) ∧ t.position ≤ u.position ∧ u.position ≤ body.length) ∧
      u.depth = t.depth := by
  intro t u
  obtain ⟨k, first, hk, hfirst, hstart, hlexemes⟩ := Roll.at_ofSource h
  have ht : k.At 0 0 t (calls.foldl Parser.after first) := Roll.at_foldl hk calls hstart
  have hu : k.At 0 0 u _ := ht.after hk c
  obtain ⟨hends, hposition⟩ := c.ends hk ht
  exact ⟨⟨first, hfirst, hends⟩, ⟨k.body, k.finish, hlexemes, hk.finish, hk.inner, hposition, hu.inside⟩,
    hu.depth.trans ht.depth.symm⟩

/-- A deferred expression that breaks off, and the call after it. -/
theorem parser_calls_stay_inside_openDyna :
    ∃ start, Tape.ofSource none "[#F00, Dyna(1 + )" = .ok start ∧
      let t := start.after .expression
      let u := t.after .document
      t.position = 8 ∧ t.position ≤ u.position ∧ u.position ≤ 9 ∧ u.depth = t.depth := by
  have hvalues : ((Tape.ofSource none "[#F00, Dyna(1 + )").toOption.map fun start =>
      (start.lexemes.length, (start.after .expression).position)) = some (10, 8) := by decide +kernel
  obtain ⟨start, hstart, hvalues⟩ := Option.map_eq_some_iff.mp hvalues
  obtain ⟨hlength, hposition⟩ := Prod.mk.inj hvalues
  have hsource := eq_ok_of_toOption hstart
  obtain ⟨-, ⟨body, finish, hlexemes, -, -, hback, hinside⟩, hdepth⟩ :=
    parser_calls_stay_inside hsource [.expression] .document
  rw [hlexemes, List.length_append, List.length_singleton] at hlength
  exact ⟨start, hsource, hposition, hback, Nat.le_trans hinside (by omega), hdepth⟩

end Yini
