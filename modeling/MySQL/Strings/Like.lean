import MySQL.Strings.CtypeSimple

/-! LIKE in character sets with one byte a character: `my_wildcmp_8bit` and `my_like_range_simple`. -/
namespace MySQL.Ctype

/-- The special characters of a pattern. They need not be distinct. -/
structure Wildcards where
  escape : UInt8
  one : UInt8
  many : UInt8

/-- Where `my_wildcmp_8bit` is: before or behind an anchor character (`result`), or behind `w_many` -/
inductive Mode
  | start
  | anchored
  | afterMany
  deriving DecidableEq

def Mode.result : Mode → Int
  | .anchored => 1
  | .start | .afterMany => -1

section
variable (map : SortOrder)

/-- The loop behind `w_many` for a character of weight `cmp`: `again` is the recursive call, and `stop` tells
that the pattern goes on with `w_many`. -/
def search (cmp : UInt8) (stop : Bool) (again : List UInt8 → Int) : List UInt8 → Int
  | [] => -1
  | byte :: str =>
    if map byte ≠ cmp then search cmp stop again str
    else if again str ≤ 0 then again str
    else if stop then -1
    else search cmp stop again str

def literal (char : UInt8) (stop : Bool) (again : Mode → List UInt8 → Int) (mode : Mode) (str : List UInt8) : Int :=
  if mode = .afterMany then search map (map char) stop (again .start) str
  else
    match str with
    | [] => 1
    | byte :: str => if map char ≠ map byte then 1 else again .anchored str

variable (w : Wildcards) (behind : Bool)

/-- `wildstr[0] == w_many`, where `behind` tells so of the byte behind the end of the pattern -/
def nextIsMany : List UInt8 → Bool
  | [] => behind
  | c :: _ => c = w.many

/-- The loops of `my_wildcmp_8bit`. A character that is both wildcards is taken for `w_one`. -/
def wildcmp : (wild : List UInt8) → Mode → List UInt8 → Int
  | [], mode, str => if mode = .afterMany ∨ str = [] then 0 else 1
  | c :: wild, mode, str =>
    if c = w.one then
      match str with
      | [] => mode.result
      | _ :: str => wildcmp wild mode str
    else if c = w.many then wildcmp wild .afterMany str
    else
      match wild with
      | [] => literal map c (nextIsMany w behind []) (wildcmp []) mode str
      | c' :: rest =>
        if c = w.escape then literal map c' (nextIsMany w behind rest) (wildcmp rest) mode str
        else literal map c (nextIsMany w behind (c' :: rest)) (wildcmp (c' :: rest)) mode str

/-- `my_wildcmp_8bit`, with the byte behind the end of the pattern -/
def myWildcmp8bit (behind : UInt8) (str wild : List UInt8) : Int :=
  wildcmp map w (behind = w.many) wild .start str

end

inductive Token
  | char (c : UInt8)
  | one
  | many
  deriving DecidableEq

section
variable (w : Wildcards) (map : SortOrder)

/-- An escape character makes the next one ordinary. It is ordinary itself at the end. -/
def tokens : List UInt8 → List Token
  | [] => []
  | c :: wild =>
    if c = w.one then .one :: tokens wild
    else if c = w.many then .many :: tokens wild
    else
      match wild with
      | [] => [.char c]
      | c' :: rest => if c = w.escape then .char c' :: tokens rest else .char c :: tokens (c' :: rest)

def Match : List Token → List UInt8 → Prop
  | [], str => str = []
  | .char c :: pattern, byte :: str => map byte = map c ∧ Match pattern str
  | .one :: pattern, _ :: str => Match pattern str
  | .many :: pattern, str => ∃ back, back <:+ str ∧ Match pattern back
  | _, [] => False

end

def Mode.pattern (mode : Mode) (pattern : List Token) : List Token :=
  if mode = .afterMany then .many :: pattern else pattern

/-- What an answer says. That no later start matches either, or that there is no match, is known if the pattern
has been read as it is (`exact`). -/
inductive Answer (map : SortOrder) (exact : Prop) (pattern : List Token) (str : List UInt8) : Mode → Int → Prop
  | matched {mode : Mode} : Match map (mode.pattern pattern) str → Answer map exact pattern str mode 0
  | noStart {mode : Mode} : (exact → ¬Match map (.many :: pattern) str) → Answer map exact pattern str mode (-1)
  | noMatch {mode : Mode} : mode ≠ .afterMany → (exact → ¬Match map pattern str) →
      Answer map exact pattern str mode 1

section
variable {map : SortOrder} {exact : Prop} {pattern : List Token} {str : List UInt8} {byte c : UInt8}
  {mode : Mode} {r : Int}

theorem match_many_many : Match map (.many :: .many :: pattern) str ↔ Match map (.many :: pattern) str := by
  constructor
  · rintro ⟨back, hBack, later, hLater, hMatch⟩
    exact ⟨later, hLater.trans hBack, hMatch⟩
  · intro h
    exact ⟨str, List.suffix_rfl, h⟩

theorem match_many_cons :
    Match map (.many :: pattern) (byte :: str) ↔ Match map pattern (byte :: str) ∨ Match map (.many :: pattern) str := by
  simp only [Match, List.suffix_cons_iff, or_and_right, exists_or, exists_eq_left]

theorem match_many_one : Match map (.many :: .one :: pattern) (byte :: str) ↔ Match map (.many :: pattern) str := by
  induction str generalizing byte with
  | nil => simp [Match, List.suffix_cons_iff]
  | cons byte' str ih =>
    rw [match_many_cons, ih, @match_many_cons _ _ str]
    rfl

/-- Behind the character the rest of the pattern matches. -/
theorem Match.many_char (h : Match map (.many :: .char c :: pattern) (byte :: str)) :
    Match map (.many :: pattern) str := by
  obtain ⟨back, hBack, hMatch⟩ := h
  cases back with
  | nil => exact hMatch.elim
  | cons byte' back => exact match_many_one.mp ⟨byte' :: back, hBack, hMatch.2⟩

theorem Answer.many (h : Answer map exact pattern str .afterMany r) :
    Answer map exact (.many :: pattern) str mode r := by
  cases h with
  | matched hMatch =>
    refine .matched ?_
    rw [Mode.pattern]
    split_ifs
    · exact match_many_many.mpr hMatch
    · exact hMatch
  | noStart hNot => exact .noStart fun hExact hMatch => hNot hExact (match_many_many.mp hMatch)
  | noMatch hMode => exact absurd rfl hMode

theorem Answer.one (h : Answer map exact pattern str mode r) :
    Answer map exact (.one :: pattern) (byte :: str) mode r := by
  cases h with
  | matched hMatch =>
    refine .matched ?_
    rw [Mode.pattern] at hMatch ⊢
    split_ifs at hMatch ⊢
    · exact match_many_one.mpr hMatch
    · exact hMatch
  | noStart hNot => exact .noStart fun hExact hMatch => hNot hExact (match_many_one.mp hMatch)
  | noMatch hMode hNot => exact .noMatch hMode hNot

theorem Answer.nil : Answer map exact (.one :: pattern) [] mode mode.result := by
  have hNot : ¬Match map (.many :: .one :: pattern) [] := by
    simp [Match]
  cases mode with
  | start => exact .noStart fun _ => hNot
  | anchored => exact .noMatch (by decide) fun _ => id
  | afterMany => exact .noStart fun _ => hNot

/-- A string that does not match from here on can only match from a later start. -/
theorem Answer.later (h : Answer map exact pattern str .afterMany r)
    (hNot : exact → ¬Match map pattern (byte :: str)) :
    Answer map exact pattern (byte :: str) .afterMany r := by
  cases h with
  | matched hMatch => exact .matched (match_many_cons.mpr (.inr hMatch))
  | noStart hNone =>
    exact .noStart fun hExact hMatch => (match_many_cons.mp hMatch).elim (hNot hExact) (hNone hExact)
  | noMatch hMode => exact absurd rfl hMode

theorem search_answer {stop : Bool} {again : List UInt8 → Int}
    (hAgain : ∀ str, Answer map exact pattern str .start (again str))
    (hStop : stop → exact → ∀ str, again str ≠ 1) (str : List UInt8) :
    Answer map exact (.char c :: pattern) str .afterMany (search map (map c) stop again str) := by
  induction str with
  | nil => exact .noStart fun _ => by simp [Match]
  | cons byte str ih =>
    rw [search]
    by_cases hByte : map byte = map c
    · rw [if_neg (not_not.mpr hByte)]
      have hTail := hAgain str
      generalize hr : again str = r at hTail
      cases hTail with
      | matched hMatch => exact .matched (match_many_cons.mpr (.inl ⟨hByte, hMatch⟩))
      | noStart hNot => exact .noStart fun hExact hMatch => hNot hExact hMatch.many_char
      | noMatch _ hNot =>
        rw [if_neg (by decide)]
        split_ifs with hMany
        · exact .noStart fun hExact => absurd hr (hStop hMany hExact str)
        · exact ih.later fun hExact hMatch => hNot hExact hMatch.2
    · rw [if_pos hByte]
      exact ih.later fun _ hMatch => hByte hMatch.1

theorem literal_answer {stop : Bool} {again : Mode → List UInt8 → Int}
    (hAgain : ∀ mode str, mode ≠ .afterMany → Answer map exact pattern str mode (again mode str))
    (hStop : mode = .afterMany → stop → exact → ∀ str, again .start str ≠ 1) (str : List UInt8) :
    Answer map exact (.char c :: pattern) str mode (literal map c stop again mode str) := by
  rw [literal.eq_def]
  split_ifs with hMode
  · rw [hMode]
    exact search_answer (fun str => hAgain .start str (by decide)) (hStop hMode) str
  · cases str with
    | nil => exact .noMatch hMode fun _ => id
    | cons byte str =>
      dsimp only
      split_ifs with hByte
      · exact .noMatch hMode fun _ hMatch => hByte hMatch.1.symm
      · have hTail := hAgain .anchored str (by decide)
        generalize again .anchored str = r at hTail
        cases hTail with
        | matched hMatch =>
          refine .matched ?_
          rw [Mode.pattern, if_neg hMode]
          exact ⟨(not_not.mp hByte).symm, hMatch⟩
        | noStart hNot => exact .noStart fun hExact hMatch => hNot hExact hMatch.many_char
        | noMatch _ hNot => exact .noMatch hMode fun hExact hMatch => hNot hExact hMatch.2

end

section
variable (map : SortOrder) (w : Wildcards) (behind : Bool)

theorem wildcmp_many (hMany : w.many ≠ w.one) (wild : List UInt8) (mode : Mode) (str : List UInt8) :
    wildcmp map w behind (w.many :: wild) mode str = wildcmp map w behind wild .afterMany str := by
  rw [wildcmp.eq_def]
  simp only [if_neg hMany, if_pos]

theorem wildcmp_nil_answer (mode : Mode) (str : List UInt8) :
    Answer map (behind = false) (tokens w []) str mode (wildcmp map w behind [] mode str) := by
  rw [wildcmp]
  split_ifs with hEnd
  · refine .matched ?_
    rw [Mode.pattern]
    split_ifs with hMode
    · exact ⟨[], List.nil_suffix, rfl⟩
    · exact hEnd.resolve_left hMode
  · exact .noMatch (fun hMode => hEnd (.inl hMode)) fun _ hNil => hEnd (.inr hNil)

variable {map w behind} in
theorem literal_wildcmp_answer {rest : List UInt8} {mode : Mode}
    (h : ∀ mode str, (mode = .afterMany → w.many ≠ w.one) →
      Answer map (behind = false) (tokens w rest) str mode (wildcmp map w behind rest mode str))
    (hMode : mode = .afterMany → w.many ≠ w.one) (c : UInt8) (str : List UInt8) :
    Answer map (behind = false) (.char c :: tokens w rest) str mode
      (literal map c (nextIsMany w behind rest) (wildcmp map w behind rest) mode str) := by
  refine literal_answer (fun mode str hNot => h mode str fun hAfter => absurd hAfter hNot)
    (fun hAfter hMany hBehind str hOne => ?_) str
  -- a pattern that goes on with `w_many` is read as behind `w_many`
  have hSame : wildcmp map w behind rest .start str = wildcmp map w behind rest .afterMany str := by
    cases rest with
    | nil => exact absurd hMany (Bool.eq_false_iff.mp hBehind)
    | cons c' rest =>
      have hHead : c' = w.many := of_decide_eq_true hMany
      rw [hHead, wildcmp_many map w behind (hMode hAfter), wildcmp_many map w behind (hMode hAfter)]
  have hAnswer := h .afterMany str fun _ => hMode hAfter
  rw [← hSame, hOne] at hAnswer
  cases hAnswer with
  | noMatch hNot => exact hNot rfl

/-- The answer for the rest of a pattern is right, unless it is `w_many` behind the end that is read. -/
theorem wildcmp_answer (wild : List UInt8) (mode : Mode) (str : List UInt8)
    (hMode : mode = .afterMany → w.many ≠ w.one) :
    Answer map (behind = false) (tokens w wild) str mode (wildcmp map w behind wild mode str) := by
  fun_induction tokens w wild generalizing mode str with
  | case1 => exact wildcmp_nil_answer map w behind mode str
  | case2 wild ih =>
    rw [wildcmp.eq_def]
    simp only [if_pos]
    cases str with
    | nil => exact .nil
    | cons byte str => exact (ih mode str hMode).one
  | case3 wild hOne ih =>
    rw [wildcmp_many map w behind hOne]
    exact (ih .afterMany str fun _ => hOne).many
  | case4 c hOne hMany =>
    rw [wildcmp.eq_def]
    simp only [if_neg hMany, if_neg hOne]
    exact literal_wildcmp_answer (fun mode str _ => wildcmp_nil_answer map w behind mode str) hMode c str
  | case5 c' rest hOne hMany ih =>
    rw [wildcmp.eq_def]
    simp only [if_neg hMany, if_neg hOne]
    exact literal_wildcmp_answer ih hMode c' str
  | case6 c hOne hMany c' rest hEscape ih =>
    rw [wildcmp.eq_def]
    simp only [if_neg hMany, if_neg hOne, if_neg hEscape]
    exact literal_wildcmp_answer ih hMode c str

end

section
variable {map : SortOrder} {w : Wildcards} {behind : UInt8} {str wild : List UInt8}

/-- A string that is said to match does match, whatever is behind the pattern. -/
theorem match_of_myWildcmp8bit (h : myWildcmp8bit map w behind str wild = 0) : Match map (tokens w wild) str := by
  have hAnswer := wildcmp_answer map w (behind = w.many) wild .start str (fun hMode => nomatch hMode)
  rw [← myWildcmp8bit, h] at hAnswer
  cases hAnswer with
  | matched hMatch => exact hMatch

theorem myWildcmp8bit_of_match (hBehind : behind ≠ w.many) (h : Match map (tokens w wild) str) :
    myWildcmp8bit map w behind str wild = 0 := by
  have hAnswer := wildcmp_answer map w (behind = w.many) wild .start str (fun hMode => nomatch hMode)
  rw [← myWildcmp8bit] at hAnswer
  generalize myWildcmp8bit map w behind str wild = r at hAnswer
  cases hAnswer with
  | matched => rfl
  | noStart hNot => exact absurd ⟨str, List.suffix_rfl, h⟩ (hNot (decide_eq_false hBehind))
  | noMatch _ hNot => exact absurd h (hNot (decide_eq_false hBehind))

end

/-- The pattern ends with `w_many`, other wildcards and one ordinary character: the search for that
character looks at the byte behind the pattern. `searching` tells that `w_many` has been read. -/
def readsBehind : (searching : Bool) → List Token → Bool
  | _, [] => false
  | searching, .one :: pattern => readsBehind searching pattern
  | _, .many :: pattern => readsBehind true pattern
  | searching, .char _ :: pattern => if pattern = [] then searching else readsBehind false pattern

theorem tokens_eq_nil (w : Wildcards) (wild : List UInt8) : tokens w wild = [] ↔ wild = [] := by
  fun_cases tokens w wild <;> simp

section
variable {map : SortOrder} {w : Wildcards}

theorem literal_congr {c : UInt8} {stop stop' : Bool} {again again' : Mode → List UInt8 → Int} {mode : Mode}
    (hStop : mode = .afterMany → stop = stop')
    (hAgain : ∀ mode str, mode ≠ .afterMany → again mode str = again' mode str) (str : List UInt8) :
    literal map c stop again mode str = literal map c stop' again' mode str := by
  have hStart : again .start = again' .start := funext fun str => hAgain .start str (by decide)
  have hAnchored : again .anchored = again' .anchored := funext fun str => hAgain .anchored str (by decide)
  by_cases hMode : mode = .afterMany
  · rw [literal.eq_def, literal.eq_def, if_pos hMode, if_pos hMode, hStop hMode, hStart]
  · rw [literal.eq_def, literal.eq_def, if_neg hMode, if_neg hMode, hAnchored]

/-- A pattern that does not end so gives the same answer whatever is behind it. -/
theorem wildcmp_eq_of_not_readsBehind (wild : List UInt8) (mode : Mode) (str : List UInt8)
    (h : readsBehind (mode = .afterMany) (tokens w wild) = false) :
    wildcmp map w true wild mode str = wildcmp map w false wild mode str := by
  -- the last character of a pattern is only compared, another one has the same rest behind it
  have hLiteral {c : UInt8} {rest : List UInt8} {mode : Mode} (str : List UInt8)
      (h : readsBehind (mode = .afterMany) (.char c :: tokens w rest) = false)
      (ih : ∀ mode str, readsBehind (mode = .afterMany) (tokens w rest) = false →
        wildcmp map w true rest mode str = wildcmp map w false rest mode str) :
      literal map c (nextIsMany w true rest) (wildcmp map w true rest) mode str =
        literal map c (nextIsMany w false rest) (wildcmp map w false rest) mode str := by
    rw [readsBehind] at h
    cases rest with
    | nil =>
      rw [if_pos ((tokens_eq_nil w []).mpr rfl), decide_eq_false_iff_not] at h
      exact literal_congr (fun hMode => absurd hMode h) (fun mode str _ => ih mode str rfl) str
    | cons c' rest =>
      rw [if_neg (mt (tokens_eq_nil w _).mp (List.cons_ne_nil c' rest))] at h
      refine literal_congr (fun _ => rfl) (fun mode str hMode => ih mode str ?_) str
      rw [decide_eq_false hMode, h]
  fun_induction tokens w wild generalizing mode str with
  | case1 => rfl
  | case2 wild ih =>
    rw [wildcmp.eq_def, wildcmp.eq_def]
    simp only [if_pos]
    cases str with
    | nil => rfl
    | cons byte str => exact ih mode str h
  | case3 wild hOne ih =>
    rw [wildcmp_many map w true hOne, wildcmp_many map w false hOne]
    exact ih .afterMany str h
  | case4 c hOne hMany =>
    rw [wildcmp.eq_def, wildcmp.eq_def]
    simp only [if_neg hMany, if_neg hOne]
    exact @hLiteral c [] mode str h fun mode str _ => rfl
  | case5 c' rest hOne hMany ih =>
    rw [wildcmp.eq_def, wildcmp.eq_def]
    simp only [if_neg hMany, if_neg hOne]
    exact hLiteral str h ih
  | case6 c hOne hMany c' rest hEscape ih =>
    rw [wildcmp.eq_def, wildcmp.eq_def]
    simp only [if_neg hMany, if_neg hOne, if_neg hEscape]
    exact hLiteral str h ih

/-- Some string matches the pattern, and the run says that no string can from here on. -/
def Spoiled (map : SortOrder) (searching : Bool) (pattern : List Token) (run : Mode → List UInt8 → Int) : Prop :=
  ∃ str, Match map (if searching then .many :: pattern else pattern) str ∧
    ∀ mode : Mode, (mode = .afterMany ↔ searching) → run mode str = -1

private theorem spoiled_literal {map : SortOrder} {c : UInt8} {rest : List UInt8} {searching : Bool}
    (h : readsBehind searching (.char c :: tokens w rest))
    (ih : ∀ searching : Bool, readsBehind searching (tokens w rest) →
      Spoiled map searching (tokens w rest) (wildcmp map w true rest)) :
    Spoiled map searching (.char c :: tokens w rest)
      (literal map c (nextIsMany w true rest) (wildcmp map w true rest)) := by
  rw [readsBehind] at h
  cases rest with
  | nil =>
    rw [if_pos ((tokens_eq_nil w []).mpr rfl)] at h
    subst h
    -- the character twice: the search stops at the first one, where `w_many` seems to follow
    refine ⟨[c, c], ⟨[c], by simp, rfl, rfl⟩, fun mode hMode => ?_⟩
    rw [literal.eq_def, if_pos (hMode.mpr rfl)]
    simp [search, wildcmp, nextIsMany]
  | cons c' rest =>
    rw [if_neg (mt (tokens_eq_nil w _).mp (List.cons_ne_nil c' rest))] at h
    obtain ⟨str, hMatch, hAnswer⟩ := ih false h
    have hMatch' : Match map (.char c :: tokens w (c' :: rest)) (c :: str) := ⟨rfl, hMatch⟩
    refine ⟨c :: str, ?_, fun mode _ => ?_⟩
    · split_ifs
      · exact ⟨c :: str, List.suffix_rfl, hMatch'⟩
      · exact hMatch'
    · have hStart := hAnswer .start (by decide)
      have hAnchored := hAnswer .anchored (by decide)
      rw [literal.eq_def]
      split_ifs
      · simp [search, hStart]
      · simp [hAnchored]

/-- Behind such a pattern, `w_many` spoils the answer for some string: the last character of the
pattern twice, behind what the pattern asks for before. -/
theorem exists_spoiled (map : SortOrder) (wild : List UInt8) (searching : Bool)
    (h : readsBehind searching (tokens w wild)) :
    Spoiled map searching (tokens w wild) (wildcmp map w true wild) := by
  fun_induction tokens w wild generalizing searching with
  | case1 => cases h
  | case2 wild ih =>
    obtain ⟨str, hMatch, hAnswer⟩ := ih searching h
    refine ⟨0 :: str, ?_, fun mode hMode => ?_⟩
    · split_ifs at hMatch ⊢
      · exact match_many_one.mpr hMatch
      · exact hMatch
    · rw [wildcmp.eq_def]
      simp only [if_pos]
      exact hAnswer mode hMode
  | case3 wild hOne ih =>
    obtain ⟨str, hMatch, hAnswer⟩ := ih true h
    refine ⟨str, ?_, fun mode _ => ?_⟩
    · split_ifs
      · exact match_many_many.mpr hMatch
      · exact hMatch
    · rw [wildcmp_many map w true hOne]
      exact hAnswer .afterMany (by decide)
  | case4 c hOne hMany =>
    obtain ⟨str, hMatch, hAnswer⟩ := @spoiled_literal w map c [] searching h fun searching hNil => by cases hNil
    refine ⟨str, hMatch, fun mode hMode => ?_⟩
    rw [wildcmp.eq_def]
    simp only [if_neg hMany, if_neg hOne]
    exact hAnswer mode hMode
  | case5 c' rest hOne hMany ih =>
    obtain ⟨str, hMatch, hAnswer⟩ := spoiled_literal h ih
    refine ⟨str, hMatch, fun mode hMode => ?_⟩
    rw [wildcmp.eq_def]
    simp only [if_neg hMany, if_neg hOne]
    exact hAnswer mode hMode
  | case6 c hOne hMany c' rest hEscape ih =>
    obtain ⟨str, hMatch, hAnswer⟩ := spoiled_literal h ih
    refine ⟨str, hMatch, fun mode hMode => ?_⟩
    rw [wildcmp.eq_def]
    simp only [if_neg hMany, if_neg hOne, if_neg hEscape]
    exact hAnswer mode hMode

end

/-- The answer tells for every string whether it matches exactly if the byte behind the pattern is not
`w_many` or is not looked at. It does not depend on that byte exactly if it is not looked at. -/
theorem myWildcmp8bit_correct_iff (map : SortOrder) (w : Wildcards) (wild : List UInt8) (behind : UInt8) :
    ((∀ str, myWildcmp8bit map w behind str wild = 0 ↔ Match map (tokens w wild) str) ↔
      behind ≠ w.many ∨ readsBehind false (tokens w wild) = false) ∧
    ((∀ str behind', myWildcmp8bit map w behind' str wild = myWildcmp8bit map w behind str wild) ↔
      readsBehind false (tokens w wild) = false) := by
  have hSame (hReads : readsBehind false (tokens w wild) = false) (str : List UInt8) (b b' : UInt8) :
      myWildcmp8bit map w b str wild = myWildcmp8bit map w b' str wild := by
    have hEither (b : UInt8) : myWildcmp8bit map w b str wild = wildcmp map w false wild .start str := by
      rw [myWildcmp8bit]
      cases decide (b = w.many) with
      | true => exact wildcmp_eq_of_not_readsBehind wild .start str hReads
      | false => rfl
    rw [hEither b, hEither b']
  have hOther : w.many + 1 ≠ w.many := by simp
  constructor
  · constructor
    · intro hRight
      by_contra hNot
      rw [not_or, not_not, Bool.not_eq_false] at hNot
      obtain ⟨str, hMatch, hAnswer⟩ := exists_spoiled map wild false hNot.2
      have hZero := (hRight str).mpr hMatch
      rw [myWildcmp8bit, decide_eq_true hNot.1, hAnswer .start (by decide)] at hZero
      cases hZero
    · rintro (hBehind | hReads) str
      · exact ⟨match_of_myWildcmp8bit, myWildcmp8bit_of_match hBehind⟩
      · rw [hSame hReads str behind (w.many + 1)]
        exact ⟨match_of_myWildcmp8bit, myWildcmp8bit_of_match hOther⟩
  · constructor
    · intro hEqual
      by_contra hReads
      rw [Bool.not_eq_false] at hReads
      obtain ⟨str, hMatch, hAnswer⟩ := exists_spoiled map wild false hReads
      have hZero := myWildcmp8bit_of_match hOther hMatch
      rw [hEqual, ← hEqual str w.many, myWildcmp8bit, decide_eq_true rfl, hAnswer .start (by decide)] at hZero
      cases hZero
    · exact fun hReads str behind' => hSame hReads str behind' behind

def sqlWildcards : Wildcards := ⟨0x5C, 0x5F, 0x25⟩

/-- The string `bb` matches the pattern `%b`, but not in front of another `%`. -/
theorem myWildcmp8bit_many_behind :
    Match id (tokens sqlWildcards [0x25, 0x62]) [0x62, 0x62] ∧
      myWildcmp8bit id sqlWildcards 0x25 [0x62, 0x62] [0x25, 0x62] = -1 ∧
      myWildcmp8bit id sqlWildcards 0 [0x62, 0x62] [0x25, 0x62] = 0 :=
  ⟨match_of_myWildcmp8bit (by decide : myWildcmp8bit id sqlWildcards 0 [0x62, 0x62] [0x25, 0x62] = 0),
    by decide, by decide⟩

/-- What `my_like_range_simple` returns: the two strings and the lengths of the keys -/
structure LikeRange where
  minStr : List UInt8
  maxStr : List UInt8
  minLength : Nat
  maxLength : Nat

def LikeRange.write (min max : UInt8) (range : LikeRange) : LikeRange :=
  { range with minStr := min :: range.minStr, maxStr := max :: range.maxStr }

section
variable (w : Wildcards) (binsort : Bool) (maxSortChar : UInt8) (resLength : Nat)

/-- A character that is no escape, with the range of the rest of the pattern -/
def likeChar (c : UInt8) (room : Nat) (next : LikeRange) : LikeRange :=
  if c = w.one then next.write 0 maxSortChar
  else if c = w.many then
    ⟨.replicate room 0, .replicate room maxSortChar, if binsort then resLength - room else resLength, resLength⟩
  else next.write c c

/-- The loop of `my_like_range_simple`, with `room` bytes and `charlen` characters to write -/
def likeRange : (ptr : List UInt8) → (room charlen : Nat) → LikeRange
  | [], room, _ => ⟨.replicate room 0x20, .replicate room 0x20, resLength - room, resLength - room⟩
  | c :: ptr, room, charlen =>
    if room = 0 ∨ charlen = 0 then
      ⟨.replicate room 0x20, .replicate room 0x20, resLength - room, resLength - room⟩
    else
      match ptr with
      | [] => likeChar w binsort maxSortChar resLength c room (likeRange [] (room - 1) (charlen - 1))
      | c' :: rest =>
        if c = w.escape then (likeRange rest (room - 1) (charlen - 1)).write c' c'
        else likeChar w binsort maxSortChar resLength c room (likeRange (c' :: rest) (room - 1) (charlen - 1))

def myLikeRangeSimple (mbmaxlen : Nat) (ptr : List UInt8) : LikeRange :=
  likeRange w binsort maxSortChar resLength ptr resLength (resLength / mbmaxlen)

end

/-- `set_max_sort_char`, with the character so far. Its weight is `max_char`. -/
def setMaxSortChar (map : SortOrder) (maxSortChar : UInt8) : UInt8 :=
  (List.range 256).foldl (fun c i => if map c < map (.ofNat i) then .ofNat i else c) maxSortChar

def padded (length : Nat) (str : List UInt8) : List UInt8 :=
  str.take length ++ .replicate (length - str.length) 0x20

/-- Among the first `room` characters before `w_many`, an escape with a character behind it is a
wildcard, too. `my_wildcmp_8bit` takes it for the wildcard. -/
def wildcardEscapes (w : Wildcards) : (ptr : List UInt8) → (room : Nat) → Bool
  | c :: c' :: rest, room + 1 =>
    if c = w.escape then c = w.one ∨ c = w.many ∨ wildcardEscapes w rest room
    else (c = w.one ∨ c ≠ w.many) ∧ wildcardEscapes w (c' :: rest) room
  | _, _ => false

def Wildcards.token (w : Wildcards) (c : UInt8) : Token :=
  if c = w.one then .one else if c = w.many then .many else .char c

theorem tokens_plain {w : Wildcards} {c : UInt8} {wild : List UInt8}
    (h : c ≠ w.escape ∨ wild = [] ∨ c = w.one ∨ c = w.many) : tokens w (c :: wild) = w.token c :: tokens w wild := by
  rw [Wildcards.token, tokens.eq_def]
  cases wild with
  | nil =>
    dsimp only
    split_ifs <;> rfl
  | cons c' rest =>
    dsimp only
    by_cases hOne : c = w.one
    · rw [if_pos hOne, if_pos hOne]
    · by_cases hMany : c = w.many
      · simp only [if_neg hOne, if_pos hMany]
      · have hEscape : c ≠ w.escape := by simpa [hOne, hMany] using h
        simp only [if_neg hOne, if_neg hMany, if_neg hEscape]

theorem tokens_escaped {w : Wildcards} {c c' : UInt8} {rest : List UInt8} (hOne : c ≠ w.one) (hMany : c ≠ w.many)
    (h : c = w.escape) : tokens w (c :: c' :: rest) = .char c' :: tokens w rest := by
  rw [tokens, if_neg hOne, if_neg hMany]
  exact if_pos h

theorem exists_match (map : SortOrder) (pattern : List Token) : ∃ str, Match map pattern str := by
  induction pattern with
  | nil => exact ⟨[], rfl⟩
  | cons token pattern ih =>
    obtain ⟨str, h⟩ := ih
    cases token with
    | char c => exact ⟨c :: str, rfl, h⟩
    | one => exact ⟨0 :: str, h⟩
    | many => exact ⟨str, str, List.suffix_rfl, h⟩

theorem padded_cons (room : Nat) (byte : UInt8) (str : List UInt8) :
    padded (room + 1) (byte :: str) = byte :: padded room str := by
  rw [padded, List.length_cons, Nat.add_sub_add_right]
  rfl

inductive Between (map : SortOrder) : (min str max : List UInt8) → Prop
  | nil : Between map [] [] []
  | cons {a b c : UInt8} {min str max : List UInt8} : map a ≤ map b → map b ≤ map c → Between map min str max →
      Between map (a :: min) (b :: str) (c :: max)

section
variable {map : SortOrder} {min str max : List UInt8}

theorem Between.le (h : Between map min str max) : min.map map ≤ str.map map ∧ str.map map ≤ max.map map := by
  have hCons {a b : UInt8} {l m : List UInt8} (hHead : a ≤ b) (hTail : l ≤ m) : a :: l ≤ b :: m := by
    rw [List.cons_le_cons_iff]
    rcases Nat.lt_or_eq_of_le hHead with hLess | hSame
    · exact .inl hLess
    · exact .inr ⟨UInt8.toNat_inj.mp hSame, hTail⟩
  induction h with
  | nil => exact ⟨List.le_refl _, List.le_refl _⟩
  | cons hMin hMax _ ih => exact ⟨hCons hMin ih.1, hCons hMax ih.2⟩

theorem Between.replicate {low high : UInt8} (hLow : ∀ c, map low ≤ map c) (hHigh : ∀ c, map c ≤ map high)
    (str : List UInt8) : Between map (.replicate str.length low) str (.replicate str.length high) := by
  induction str with
  | nil => exact .nil
  | cons byte str ih => exact .cons (hLow byte) (hHigh byte) ih

end

theorem length_padded (length : Nat) (str : List UInt8) : (padded length str).length = length := by
  simp only [padded, List.length_append, List.length_take, List.length_replicate]
  omega

theorem le_setMaxSortChar (map : SortOrder) (init c : UInt8) : map c ≤ map (setMaxSortChar map init) := by
  have hTurns (n : Nat) : ∀ i < n, map (.ofNat i) ≤
      map ((List.range n).foldl (fun c i => if map c < map (.ofNat i) then .ofNat i else c) init) := by
    induction n with
    | zero => exact fun i hi => absurd hi (Nat.not_lt_zero i)
    | succ n ih =>
      intro i hi
      rw [List.range_succ, List.foldl_append, List.foldl_cons]
      rcases Nat.lt_succ_iff_lt_or_eq.mp hi with hBefore | rfl
      · split_ifs with hLess
        · exact UInt8.le_trans (ih i hBefore) (UInt8.le_of_lt hLess)
        · exact ih i hBefore
      · split_ifs with hLess
        · exact UInt8.le_refl _
        · exact UInt8.not_lt.mp hLess
  have hc := hTurns 256 c.toNat c.toNat_lt
  rwa [UInt8.ofNat_toNat] at hc

section
variable {map : SortOrder} {w : Wildcards} {binsort : Bool} {maxSortChar : UInt8} {resLength : Nat}

variable (w binsort maxSortChar resLength) in
theorem length_likeRange (ptr : List UInt8) (room : Nat) :
    (likeRange w binsort maxSortChar resLength ptr room room).minStr.length = room ∧
      (likeRange w binsort maxSortChar resLength ptr room room).maxStr.length = room := by
  induction room generalizing ptr with
  | zero =>
    rw [likeRange.eq_def]
    cases ptr <;> simp
  | succ room ih =>
    rcases ptr with - | ⟨c, - | ⟨c', rest⟩⟩
    · simp [likeRange]
    · simp only [likeRange, likeChar]
      split_ifs <;> simp_all [LikeRange.write]
    · have hRest := ih rest
      have hNext := ih (c' :: rest)
      rw [likeRange.eq_def]
      simp only [likeChar]
      split_ifs <;> simp_all [LikeRange.write]

theorem Between.write {room : Nat} {a b c : UInt8} {str : List UInt8} {range : LikeRange} (hMin : map a ≤ map b)
    (hMax : map b ≤ map c) (h : Between map range.minStr (padded room str) range.maxStr) :
    Between map (range.write a c).minStr (padded (room + 1) (b :: str)) (range.write a c).maxStr := by
  rw [padded_cons]
  exact .cons hMin hMax h

theorem Between.literal {room : Nat} {c : UInt8} {pattern : List Token} {str : List UInt8} {range : LikeRange}
    (h : Match map (.char c :: pattern) str)
    (hRest : ∀ str, Match map pattern str → Between map range.minStr (padded room str) range.maxStr) :
    Between map (range.write c c).minStr (padded (room + 1) str) (range.write c c).maxStr := by
  cases str with
  | nil => exact h.elim
  | cons byte str =>
    have hLe : map byte ≤ map byte := UInt8.le_refl _
    exact .write (h.1 ▸ hLe) (h.1 ▸ hLe) (hRest str h.2)

section
variable (hMin : ∀ c, map 0 ≤ map c) (hMax : ∀ c, map c ≤ map maxSortChar)
include hMin hMax

theorem Between.likeChar {c : UInt8} {room : Nat} {pattern : List Token} {str : List UInt8} {next : LikeRange}
    (hRest : (c = w.one ∨ c ≠ w.many) → ∀ str, Match map pattern str →
      Between map next.minStr (padded room str) next.maxStr)
    (h : Match map (w.token c :: pattern) str) :
    Between map (likeChar w binsort maxSortChar resLength c (room + 1) next).minStr (padded (room + 1) str)
      (likeChar w binsort maxSortChar resLength c (room + 1) next).maxStr := by
  rw [Ctype.likeChar]
  rw [Wildcards.token] at h
  by_cases hOne : c = w.one
  · rw [if_pos hOne] at h ⊢
    cases str with
    | nil => exact h.elim
    | cons byte str => exact .write (hMin byte) (hMax byte) (hRest (.inl hOne) str h)
  · rw [if_neg hOne] at h ⊢
    by_cases hMany : c = w.many
    · rw [if_pos hMany]
      have hAll := Between.replicate hMin hMax (padded (room + 1) str)
      rw [length_padded] at hAll
      exact hAll
    · rw [if_neg hMany] at h ⊢
      exact .literal h (hRest (.inr hMany))

variable (w binsort resLength) in
/-- A string that matches is between the bounds at every place, if no wildcard was taken for an escape. -/
theorem likeRange_between (ptr : List UInt8) (room : Nat) (hEscapes : wildcardEscapes w ptr room = false)
    (str : List UInt8) (h : Match map (tokens w ptr) str) :
    Between map (likeRange w binsort maxSortChar resLength ptr room room).minStr (padded room str)
      (likeRange w binsort maxSortChar resLength ptr room room).maxStr := by
  induction room generalizing ptr str with
  | zero =>
    have hPadded : padded 0 str = [] := List.eq_nil_of_length_eq_zero (length_padded 0 str)
    rw [hPadded, likeRange.eq_def]
    cases ptr with
    | nil => exact .nil
    | cons c ptr => exact .nil
  | succ room ih =>
    have hRoom : ¬(room + 1 = 0 ∨ room + 1 = 0) := by omega
    have hNil (room : Nat) : wildcardEscapes w [] room = false := by rw [wildcardEscapes]; simp
    rw [likeRange.eq_def]
    rcases ptr with - | ⟨c, - | ⟨c', rest⟩⟩
    · obtain rfl : str = [] := h
      have hSpaces : padded room [] = .replicate room 0x20 := by simp [padded]
      have hRest := ih [] (hNil room) [] rfl
      rw [hSpaces] at hRest
      exact .cons (UInt8.le_refl _) (UInt8.le_refl _) hRest
    · simp only [if_neg hRoom]
      rw [tokens_plain (.inr (.inl rfl))] at h
      exact .likeChar hMin hMax (fun _ str hRest => ih [] (hNil room) str hRest) h
    · simp only [if_neg hRoom]
      rw [wildcardEscapes] at hEscapes
      split_ifs at hEscapes ⊢ with hEscape
      · simp only [decide_eq_false_iff_not, not_or, Bool.not_eq_true] at hEscapes
        rw [tokens_escaped hEscapes.1 hEscapes.2.1 hEscape] at h
        exact .literal h (ih rest hEscapes.2.2)
      · simp only [decide_eq_false_iff_not, not_and, Bool.not_eq_true] at hEscapes
        rw [tokens_plain (.inl hEscape)] at h
        exact .likeChar hMin hMax (fun hNot str hRest => ih _ (hEscapes hNot) str hRest) h

variable (w binsort resLength) in
omit hMax in
/-- If a wildcard was taken for an escape, a string with another byte in its place is lost: the smallest one
that matches so far, or the greatest one if the character behind the escape has the smallest weight. -/
theorem likeRange_outside (hVaried : map 0 < map maxSortChar) (ptr : List UInt8) (room : Nat)
    (hEscapes : wildcardEscapes w ptr room) :
    (∃ str, Match map (tokens w ptr) str ∧ (padded room str).map map <
      (likeRange w binsort maxSortChar resLength ptr room room).minStr.map map) ∨
    ∃ str, Match map (tokens w ptr) str ∧
      (likeRange w binsort maxSortChar resLength ptr room room).maxStr.map map < (padded room str).map map := by
  induction room generalizing ptr with
  | zero => simp [wildcardEscapes] at hEscapes
  | succ room ih =>
    have hRoom : ¬(room + 1 = 0 ∨ room + 1 = 0) := by omega
    rw [likeRange.eq_def]
    rcases ptr with - | ⟨c, - | ⟨c', rest⟩⟩
    · simp [wildcardEscapes] at hEscapes
    · simp [wildcardEscapes] at hEscapes
    simp only [if_neg hRoom, Nat.add_sub_cancel]
    rw [wildcardEscapes] at hEscapes
    split_ifs at hEscapes ⊢ with hEscape
    · by_cases hWild : c = w.one ∨ c = w.many
      · obtain ⟨str, hRest⟩ := exists_match map (tokens w (c' :: rest))
        have hMatch (byte : UInt8) : Match map (tokens w (c :: c' :: rest)) (byte :: str) := by
          rw [tokens_plain (.inr (.inr hWild)), Wildcards.token]
          split_ifs with hOne hMany
          · exact hRest
          · exact ⟨str, List.suffix_cons byte str, hRest⟩
          · exact absurd hWild (not_or.mpr ⟨hOne, hMany⟩)
        by_cases hLeast : map c' = map 0
        · refine .inr ⟨maxSortChar :: str, hMatch maxSortChar, ?_⟩
          rw [padded_cons, LikeRange.write, List.map_cons, List.map_cons, List.cons_lt_cons_iff]
          exact .inl (hLeast ▸ hVaried)
        · refine .inl ⟨0 :: str, hMatch 0, ?_⟩
          rw [padded_cons, LikeRange.write, List.map_cons, List.map_cons, List.cons_lt_cons_iff]
          exact .inl (UInt8.lt_of_le_of_ne (hMin c') (Ne.symm hLeast))
      · obtain ⟨hOne, hMany⟩ := not_or.mp hWild
        simp only [hOne, hMany, false_or, decide_eq_true_eq] at hEscapes
        rw [tokens_escaped hOne hMany hEscape]
        refine (ih rest hEscapes).imp ?_ ?_
        · rintro ⟨str, hMatch, hLess⟩
          refine ⟨c' :: str, ⟨rfl, hMatch⟩, ?_⟩
          rw [padded_cons, LikeRange.write, List.map_cons, List.map_cons, List.cons_lt_cons_iff]
          exact .inr ⟨rfl, hLess⟩
        · rintro ⟨str, hMatch, hLess⟩
          refine ⟨c' :: str, ⟨rfl, hMatch⟩, ?_⟩
          rw [padded_cons, LikeRange.write, List.map_cons, List.map_cons, List.cons_lt_cons_iff]
          exact .inr ⟨rfl, hLess⟩
    · rw [decide_eq_true_eq] at hEscapes
      rw [tokens_plain (.inl hEscape)]
      obtain ⟨a, b, hWrite, hLow, hHigh⟩ : ∃ a b, (∀ next, likeChar w binsort maxSortChar resLength c (room + 1) next =
          next.write a b) ∧ (∀ str, Match map (tokens w (c' :: rest)) str →
            Match map (w.token c :: tokens w (c' :: rest)) (a :: str)) ∧
          ∀ str, Match map (tokens w (c' :: rest)) str →
            Match map (w.token c :: tokens w (c' :: rest)) (b :: str) := by
        rcases hEscapes.1 with hOne | hMany
        · refine ⟨0, maxSortChar, fun next => by rw [likeChar, if_pos hOne], ?_⟩
          rw [Wildcards.token, if_pos hOne]
          exact ⟨fun _ h => h, fun _ h => h⟩
        · by_cases hOne : c = w.one
          · refine ⟨0, maxSortChar, fun next => by rw [likeChar, if_pos hOne], ?_⟩
            rw [Wildcards.token, if_pos hOne]
            exact ⟨fun _ h => h, fun _ h => h⟩
          · refine ⟨c, c, fun next => by rw [likeChar, if_neg hOne, if_neg hMany], ?_⟩
            rw [Wildcards.token, if_neg hOne, if_neg hMany]
            exact ⟨fun _ h => ⟨rfl, h⟩, fun _ h => ⟨rfl, h⟩⟩
      rw [hWrite]
      refine (ih (c' :: rest) hEscapes.2).imp ?_ ?_
      · rintro ⟨str, hMatch, hLess⟩
        refine ⟨a :: str, hLow str hMatch, ?_⟩
        rw [padded_cons, LikeRange.write, List.map_cons, List.map_cons, List.cons_lt_cons_iff]
        exact .inr ⟨rfl, hLess⟩
      · rintro ⟨str, hMatch, hLess⟩
        refine ⟨b :: str, hHigh str hMatch, ?_⟩
        rw [padded_cons, LikeRange.write, List.map_cons, List.map_cons, List.cons_lt_cons_iff]
        exact .inr ⟨rfl, hLess⟩

end

end

/-- Every string that matches is in the range of the pattern, exactly if all characters weigh the same or no
wildcard of the pattern was taken for an escape. -/
theorem myLikeRangeSimple_sound_iff (map : SortOrder) (hMin : ∀ c, map 0 ≤ map c) (w : Wildcards) (binsort : Bool)
    (init : UInt8) (ptr : List UInt8) (resLength : Nat) :
    (∀ behind str, myWildcmp8bit map w behind str ptr = 0 →
      ∃ range, myLikeRangeSimple w binsort (setMaxSortChar map init) resLength 1 ptr = range ∧
        range.minStr.length = resLength ∧ range.maxStr.length = resLength ∧
        range.minStr.map map ≤ (padded resLength str).map map ∧
        (padded resLength str).map map ≤ range.maxStr.map map) ↔
    (∀ c, map c = map 0) ∨ wildcardEscapes w ptr resLength = false := by
  have hMax := le_setMaxSortChar map init
  have hLengths := length_likeRange w binsort (setMaxSortChar map init) resLength ptr resLength
  simp only [myLikeRangeSimple, Nat.div_one]
  constructor
  · intro hSound
    by_contra hNot
    obtain ⟨hVaried, hEscapes⟩ := not_or.mp hNot
    have hLess : map 0 < map (setMaxSortChar map init) := by
      obtain ⟨c, hc⟩ := not_forall.mp hVaried
      exact UInt8.lt_of_lt_of_le (UInt8.lt_of_le_of_ne (hMin c) (Ne.symm hc)) (hMax c)
    have hOther : w.many + 1 ≠ w.many := by simp
    rcases likeRange_outside w binsort resLength hMin hLess ptr resLength (by simpa using hEscapes) with
      ⟨str, hMatch, hOutside⟩ | ⟨str, hMatch, hOutside⟩
    · obtain ⟨_, rfl, -, -, hLow, -⟩ := hSound _ str (myWildcmp8bit_of_match hOther hMatch)
      exact absurd hOutside (List.not_lt.mpr hLow)
    · obtain ⟨_, rfl, -, -, -, hHigh⟩ := hSound _ str (myWildcmp8bit_of_match hOther hMatch)
      exact absurd hOutside (List.not_lt.mpr hHigh)
  · rintro (hFlat | hEscapes) behind str h
    · have hSame (l : List UInt8) (hl : l.length = resLength) : l.map map = .replicate resLength (map 0) := by
        rw [← hl]
        exact List.map_eq_replicate_iff.mpr fun c _ => hFlat c
      refine ⟨_, rfl, hLengths.1, hLengths.2, ?_⟩
      rw [hSame _ hLengths.1, hSame _ hLengths.2, hSame _ (length_padded resLength str)]
      exact ⟨List.le_refl _, List.le_refl _⟩
    · exact ⟨_, rfl, hLengths.1, hLengths.2, (likeRange_between w binsort resLength hMin hMax ptr resLength hEscapes
        str (match_of_myWildcmp8bit h)).le⟩

/-- The row `bx` is in the range of `b%`. -/
theorem myLikeRangeSimple_sound_iff_oneLetter :
    myWildcmp8bit id sqlWildcards 0 [0x62, 0x78] [0x62, 0x25] = 0 ∧
      ∃ range, myLikeRangeSimple sqlWildcards false (setMaxSortChar id 0) 2 1 [0x62, 0x25] = range ∧
        range.minStr.length = 2 ∧ range.maxStr.length = 2 ∧
        range.minStr.map id ≤ (padded 2 [0x62, 0x78]).map id ∧
        (padded 2 [0x62, 0x78]).map id ≤ range.maxStr.map id := by
  have hMatch : myWildcmp8bit id sqlWildcards 0 [0x62, 0x78] [0x62, 0x25] = 0 := by decide
  have hSound := (myLikeRangeSimple_sound_iff id (fun _ => UInt8.zero_le) sqlWildcards false 0 [0x62, 0x25] 2).mpr
    (.inr (by decide))
  exact ⟨hMatch, hSound 0 [0x62, 0x78] hMatch⟩

/-- `c LIKE 'b%a' ESCAPE '%'` holds of `bxa`, which is above the range from `ba` to `ba`. -/
theorem myLikeRangeSimple_loses_row :
    let w : Wildcards := ⟨0x25, 0x5F, 0x25⟩
    let range := myLikeRangeSimple w true (setMaxSortChar id 0) 4 1 [0x62, 0x25, 0x61]
    myWildcmp8bit id w 0 [0x62, 0x78, 0x61] [0x62, 0x25, 0x61] = 0 ∧
      range.minStr = [0x62, 0x61, 0x20, 0x20] ∧ range.maxStr = [0x62, 0x61, 0x20, 0x20] ∧
      ¬ (padded 4 [0x62, 0x78, 0x61]).map id ≤ range.maxStr.map id := by
  decide

end MySQL.Ctype
