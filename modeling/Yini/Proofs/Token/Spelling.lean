import Yini.Token.Lexer

/-!
How tokens are spelled.  `Token.Spells` says of the characters of a token, and of those that follow,
that the token ends between them: a name goes on as long as it can, so no character that continues a
name may follow it.  Reading a token off the front of some characters gives what they spell, and
nothing else (`Token.scan_of_spells`, `Token.spells_of_scan`).
-/

namespace Yini.Token

/-- **The characters spell a token**, when the others follow them. -/
inductive Spells : List Char → Token → List Char → Prop
  | append (rest : List Char) : Spells ['+', '='] (mark .append) rest
  | mark {c : Char} {m : Mark} {rest : List Char} (hm : Mark.ofChar? c = some m)
      (hrest : c = '+' → rest.head? ≠ some '=') : Spells [c] (mark m) rest
  | string {body text rest : List Char} (h : scanString body [] 1 = some (text, 1 + body.length)) :
      Spells ('"' :: body) (string (String.ofList text)) rest
  | whole {digits rest : List Char} (hne : digits ≠ []) (hdigits : ∀ c ∈ digits, c.isDigit)
      (hrest : ∀ c, rest.head? = some c → c.isDigit = false)
      (hpoint : ∀ c cs, rest = '.' :: c :: cs → c.isDigit = false) :
      Spells digits (number (String.ofList digits)) rest
  | decimal {digits fraction rest : List Char} (hne : digits ≠ []) (hfraction : fraction ≠ [])
      (hdigits : ∀ c ∈ digits, c.isDigit) (hfractions : ∀ c ∈ fraction, c.isDigit)
      (hrest : ∀ c, rest.head? = some c → c.isDigit = false) :
      Spells (digits ++ '.' :: fraction) (number (String.ofList (digits ++ '.' :: fraction))) rest
  | word {c : Char} {cs rest : List Char} (hmark : Mark.ofChar? c = none) (hdigit : c.isDigit = false)
      (hstart : Text.startsName c) (hcs : ∀ d ∈ cs, Text.continuesName d)
      (hrest : ∀ d, rest.head? = some d → Text.continuesName d = false) :
      Spells (c :: cs) (ofWord (String.ofList (c :: cs))) rest

theorem Spells.ne_nil {text rest : List Char} {t : Token} (h : Spells text t rest) : text ≠ [] := by
  cases h with
  | whole hne => exact hne
  | decimal => simp
  | _ => exact List.cons_ne_nil _ _

theorem Spells.ne_finish {text rest : List Char} {t : Token} (h : Spells text t rest) :
    t ≠ finish := by
  cases h with
  | word => exact ofWord_ne_finish _
  | _ => exact Token.noConfusion

/-! ## Runs of characters -/

/-- What is taken stops where the first character follows that is not. -/
theorem takeWhile_append_of_all {p : Char → Bool} {cs rest : List Char} (h : ∀ c ∈ cs, p c)
    (hrest : ∀ c, rest.head? = some c → p c = false) : (cs ++ rest).takeWhile p = cs := by
  rw [List.takeWhile_append_of_pos h]
  cases rest with
  | nil => simp
  | cons c rest => rw [List.takeWhile_cons, hrest c rfl]; simp

/-- What stands behind the characters that are taken does not begin with one of them. -/
theorem not_of_head?_dropWhile {p : Char → Bool} {cs : List Char} {c : Char}
    (h : (cs.dropWhile p).head? = some c) : p c = false := by
  have hnot := List.head?_dropWhile_not p cs
  rw [h] at hnot
  simpa using hnot

theorem of_mem_takeWhile {p : Char → Bool} {cs : List Char} {c : Char} (h : c ∈ cs.takeWhile p) :
    p c :=
  List.all_eq_true.mp List.all_takeWhile c h

/-! ## Quoted texts -/

/-- A quoted text ends at its closing quote, whatever follows. -/
theorem scanString_append {body rest text acc : List Char} {n : Nat} :
    scanString (body ++ rest) acc n = some (text, n + body.length) ↔
      scanString body acc n = some (text, n + body.length) := by
  fun_induction scanString body acc n with
  | case1 acc n =>
    refine ⟨fun h => ?_, fun h => by cases h⟩
    have hlt := count_le_scanString h
    simp only [List.length_nil, Nat.add_zero, Nat.lt_irrefl] at hlt
  | case2 cs acc n => rfl
  | case3 c cs acc n ih =>
    have hlength : n + (cs.length + 1 + 1) = n + 2 + cs.length := by omega
    rw [List.cons_append, List.cons_append, scanString, List.length_cons, List.length_cons, hlength]
    exact ih
  | case4 c cs acc n hquote hescape ih =>
    have hlength : n + (cs.length + 1) = n + 1 + cs.length := by omega
    by_cases hslash : c = '\\'
    · -- a backslash at the end of the body escapes nothing there, and too much with what follows
      obtain rfl : cs = [] := by
        cases cs with
        | nil => rfl
        | cons d ds => exact absurd rfl (hescape d ds hslash)
      subst hslash
      refine ⟨fun h => ?_, fun h => by cases h⟩
      cases rest with
      | nil => cases h
      | cons d rest =>
        have hlt := count_le_scanString (show scanString rest _ (n + 2) = some _ from h)
        simp only [List.length_cons, List.length_nil] at hlt
        omega
    · rw [List.cons_append, scanString, List.length_cons, hlength]
      · exact ih
      · exact hquote
      · exact fun d ds h _ => hslash h

/-! ## Tokens -/

theorem ofChar?_eq_none_of_isDigit {c : Char} (h : c.isDigit = true) : Mark.ofChar? c = none := by
  unfold Mark.ofChar?
  split <;> first | rfl | exact absurd h (by decide)

/-- A character that is neither a mark of its own nor a quote decides by its class what is read. -/
theorem scan_cons {c : Char} {cs : List Char} (hmark : Mark.ofChar? c = none) (hquote : c ≠ '"') :
    scan (c :: cs) =
      if c.isDigit then
        .ok (number (String.ofList (scanNumber (c :: cs))), (scanNumber (c :: cs)).length)
      else if Text.startsName c then
        .ok (ofWord (String.ofList (c :: cs.takeWhile Text.continuesName)),
          (c :: cs.takeWhile Text.continuesName).length)
      else .error (.unexpected c) := by
  rw [scan]
  · rw [hmark]
  · rintro ds rfl rfl
    cases hmark
  · exact hquote

/-- The digits at the front end with the first other character, unless that is a point before more
    digits. -/
theorem scanNumber_whole {digits rest : List Char} (hdigits : ∀ c ∈ digits, c.isDigit)
    (hrest : ∀ c, rest.head? = some c → c.isDigit = false)
    (hpoint : ∀ c cs, rest = '.' :: c :: cs → c.isDigit = false) :
    scanNumber (digits ++ rest) = digits := by
  rw [scanNumber, takeWhile_append_of_all hdigits hrest, List.drop_left]
  split
  next cs' =>
    cases cs' with
    | nil => rfl
    | cons c cs => rw [List.takeWhile_cons, hpoint c cs rfl]; rfl
  next => rfl

/-- A number with a point goes on up to the last digit behind that. -/
theorem scanNumber_decimal {digits fraction rest : List Char} (hfraction : fraction ≠ [])
    (hdigits : ∀ c ∈ digits, c.isDigit) (hfractions : ∀ c ∈ fraction, c.isDigit)
    (hrest : ∀ c, rest.head? = some c → c.isDigit = false) :
    scanNumber (digits ++ '.' :: (fraction ++ rest)) = digits ++ '.' :: fraction := by
  have hwhole : (digits ++ '.' :: (fraction ++ rest)).takeWhile Char.isDigit = digits :=
    takeWhile_append_of_all hdigits fun c hc => by cases hc; rfl
  have hpart := takeWhile_append_of_all hfractions hrest
  cases fraction with
  | nil => exact absurd rfl hfraction
  | cons c fraction =>
    rw [scanNumber, hwhole, List.drop_left]
    simp only [hpart]

/-- **What is spelled is read.** -/
theorem scan_of_spells {text rest : List Char} {t : Token} (h : Spells text t rest) :
    scan (text ++ rest) = .ok (t, text.length) := by
  -- a digit is no mark and no quote
  have hnumber : ∀ digits more : List Char, digits ≠ [] → (∀ c ∈ digits, c.isDigit) →
      scan (digits ++ more) = .ok (number (String.ofList (scanNumber (digits ++ more))),
        (scanNumber (digits ++ more)).length) := by
    intro digits more hne hdigits
    cases digits with
    | nil => exact absurd rfl hne
    | cons c cs =>
      have hdigit := hdigits c List.mem_cons_self
      have hquote : c ≠ '"' := by
        rintro rfl
        cases hdigit
      rw [List.cons_append, scan_cons (ofChar?_eq_none_of_isDigit hdigit) hquote, if_pos hdigit]
  cases h with
  | append => rfl
  | @mark c m _ hm hrest =>
    rw [List.singleton_append, scan]
    · rw [hm]
      rfl
    · rintro ds rfl rfl
      exact hrest rfl rfl
    · rintro rfl
      cases hm
  | @string body content _ h =>
    have hscan : scanString (body ++ rest) [] 1 = some (content, 1 + body.length) :=
      scanString_append.mpr h
    rw [List.cons_append, scan, hscan, List.length_cons, Nat.add_comm]
  | whole hne hdigits hrest hpoint =>
    rw [hnumber _ _ hne hdigits, scanNumber_whole hdigits hrest hpoint]
  | decimal hne hfraction hdigits hfractions hrest =>
    rw [List.append_assoc, List.cons_append, hnumber _ _ hne hdigits,
      scanNumber_decimal hfraction hdigits hfractions hrest]
  | @word c cs _ hmark hdigit hstart hcs hrest =>
    have hquote : c ≠ '"' := by
      rintro rfl
      exact absurd hstart (by decide)
    have hword : (cs ++ rest).takeWhile Text.continuesName = cs := takeWhile_append_of_all hcs hrest
    rw [List.cons_append, scan_cons hmark hquote, if_neg (by simp [hdigit]), if_pos hstart, hword]

/-- A quoted text is spelled by the characters up to its closing quote. -/
theorem exists_of_scanString {cs acc text : List Char} {n count : Nat}
    (h : scanString cs acc n = some (text, count)) :
    ∃ body rest, cs = body ++ rest ∧ count = n + body.length ∧
      scanString body acc n = some (text, n + body.length) := by
  fun_induction scanString cs acc n with
  | case1 => cases h
  | case2 cs acc n =>
    cases h
    exact ⟨['"'], cs, rfl, rfl, rfl⟩
  | case3 c cs acc n ih =>
    obtain ⟨body, rest, rfl, rfl, hbody⟩ := ih h
    refine ⟨'\\' :: c :: body, rest, rfl, by simp only [List.length_cons]; omega, ?_⟩
    rw [scanString, hbody]
    simp only [List.length_cons]
    congr 2
    omega
  | case4 c cs acc n hquote hescape ih =>
    obtain ⟨body, rest, rfl, rfl, hbody⟩ := ih h
    refine ⟨c :: body, rest, rfl, by simp only [List.length_cons]; omega, ?_⟩
    rw [scanString, hbody]
    · simp only [List.length_cons]
      congr 2
      omega
    · exact hquote
    · rintro d ds hslash rfl
      exact hescape d (ds ++ rest) hslash rfl

/-- **What is read as a number spells one**: digits, and behind a point at least one digit more. -/
theorem scanNumber_cases (cs : List Char) (hne : cs.takeWhile Char.isDigit ≠ []) :
    ∃ rest, cs = scanNumber cs ++ rest ∧
      Spells (scanNumber cs) (number (String.ofList (scanNumber cs))) rest := by
  have hsplit : cs = cs.takeWhile Char.isDigit ++ cs.dropWhile Char.isDigit :=
    List.takeWhile_append_dropWhile.symm
  have hdigits : ∀ c ∈ cs.takeWhile Char.isDigit, c.isDigit := fun c hc => of_mem_takeWhile hc
  have hrest : ∀ c, (cs.dropWhile Char.isDigit).head? = some c → c.isDigit = false :=
    fun c hc => not_of_head?_dropWhile hc
  generalize cs.takeWhile Char.isDigit = digits at hne hsplit hdigits
  generalize cs.dropWhile Char.isDigit = rest at hsplit hrest
  subst hsplit
  by_cases hpoint : ∃ c ds, rest = '.' :: c :: ds ∧ c.isDigit
  · obtain ⟨c, ds, rfl, hc⟩ := hpoint
    have hfraction : (c :: ds).takeWhile Char.isDigit ≠ [] := by
      rw [List.takeWhile_cons, if_pos hc]
      exact List.cons_ne_nil _ _
    have hfractions : ∀ d ∈ (c :: ds).takeWhile Char.isDigit, d.isDigit :=
      fun d hd => of_mem_takeWhile hd
    have hmore : ∀ d, ((c :: ds).dropWhile Char.isDigit).head? = some d → d.isDigit = false :=
      fun d hd => not_of_head?_dropWhile hd
    have hscan := scanNumber_decimal hfraction hdigits hfractions hmore
    rw [List.takeWhile_append_dropWhile] at hscan
    rw [hscan]
    refine ⟨(c :: ds).dropWhile Char.isDigit, ?_, .decimal hne hfraction hdigits hfractions hmore⟩
    rw [List.append_assoc, List.cons_append, List.takeWhile_append_dropWhile]
  · have hend : ∀ c ds, rest = '.' :: c :: ds → c.isDigit = false := fun c ds hds =>
      Bool.eq_false_iff.mpr fun hc => hpoint ⟨c, ds, hds, hc⟩
    rw [scanNumber_whole hdigits hrest hend]
    exact ⟨rest, rfl, .whole hne hdigits hrest hend⟩

/-- Only the end of the source is read as its end. -/
theorem eq_nil_of_scan {cs : List Char} {n : Nat} (h : scan cs = .ok (finish, n)) : cs = [] := by
  unfold scan at h
  split at h
  · rfl
  · cases h
  · split at h <;> cases h
  · split at h
    next => cases h
    next =>
      split at h
      next => cases h
      next =>
        split at h
        next =>
          injection h with h
          exact absurd (Prod.mk.inj h).1 (ofWord_ne_finish _)
        next => cases h

/-- **What is read is spelled.** -/
theorem spells_of_scan {cs : List Char} {t : Token} {n : Nat} (h : scan cs = .ok (t, n))
    (ht : t ≠ finish) : ∃ text rest, cs = text ++ rest ∧ text.length = n ∧ Spells text t rest := by
  unfold scan at h
  split at h
  · cases h
    exact absurd rfl ht
  · cases h
    exact ⟨['+', '='], _, rfl, rfl, .append _⟩
  · split at h
    next content count hs =>
      cases h
      obtain ⟨body, rest, rfl, rfl, hbody⟩ := exists_of_scanString hs
      exact ⟨'"' :: body, rest, rfl, by rw [List.length_cons, Nat.add_comm], .string hbody⟩
    next => cases h
  · next c cs happend _ =>
    split at h
    next m hm =>
      cases h
      refine ⟨[c], cs, rfl, rfl, .mark hm ?_⟩
      -- a plus before an equals sign would have been read as one token with it
      rintro rfl hhead
      obtain ⟨ds, rfl⟩ := List.head?_eq_some_iff.mp hhead
      exact happend ds rfl rfl
    next hm =>
      split at h
      next hdigit =>
        cases h
        obtain ⟨rest, hcs, hspells⟩ := scanNumber_cases (c :: cs) (by
          rw [List.takeWhile_cons, if_pos hdigit]
          exact List.cons_ne_nil _ _)
        exact ⟨_, rest, hcs, rfl, hspells⟩
      next hdigit =>
        split at h
        next hstart =>
          cases h
          refine ⟨_, cs.dropWhile Text.continuesName, ?_, rfl, .word hm (by simpa using hdigit) hstart
            (fun d hd => of_mem_takeWhile hd) fun d hd => not_of_head?_dropWhile hd⟩
          rw [List.cons_append, List.takeWhile_append_dropWhile]
        next => cases h

end Yini.Token
