import Livingstone.Readers.FromL2

/-! What `read_integer` makes of a token of any length. It takes the number modulo 2^32, and a star
at the start of a token for the whole of it. -/

namespace Livingstone
namespace FromL2

/-- What stands up to the next word boundary. -/
def word (rest : List Char) : List Char := rest.takeWhile fun c => !strAtWordBoundary c

def token (line : List Char) (index : ℕ) : List Char := word (line.drop index)

def IsDigit (c : Char) : Prop := '0' ≤ c ∧ c ≤ '9'

instance : DecidablePred IsDigit := fun _ => inferInstanceAs (Decidable (_ ∧ _))

def value (token : List Char) : ℕ := Nat.ofDigits 10 (token.map fun c => c.toNat - 48).reverse

structure Denotes (token : List Char) (n : ℕ) : Prop where
  ne_nil : token ≠ []
  digits : ∀ c ∈ token, IsDigit c
  eq : value token = n

/-- The token is a number that an `int` holds. -/
def HasNumber (token : List Char) : Prop := ∃ n, Denotes token n ∧ n < 2 ^ 31

def IsStar (acceptStar : Bool) (token : List Char) : Prop := acceptStar = true ∧ token = ['*']

/-- `r` is the number of a token if it has one that is an `int`, and a sentinel if not. -/
structure ReadsRight (acceptStar : Bool) (token : List Char) (r : ℤ) : Prop where
  number : ∀ n : ℕ, r = n ↔ Denotes token n ∧ n < 2 ^ 31
  star : r = anyMode ↔ IsStar acceptStar token
  neither : r = notAnInteger ↔ ¬ HasNumber token ∧ ¬ IsStar acceptStar token

theorem word_nil : word [] = [] := rfl

theorem word_cons {c : Char} {rest : List Char} (h : strAtWordBoundary c = false) :
    word (c :: rest) = c :: word rest := by
  simp [word, h]

theorem word_boundary {c : Char} {rest : List Char} (h : strAtWordBoundary c = true) :
    word (c :: rest) = [] := by
  simp [word, h]

theorem not_boundary_of_isDigit {c : Char} (h : IsDigit c) : strAtWordBoundary c = false := by
  have hlow : 48 ≤ c.toNat := h.1
  have hne (d : Char) (hd : d.toNat < 48) : c ≠ d := by
    intro he
    subst he
    omega
  simp only [strAtWordBoundary, hne ' ' (by decide), hne '\n' (by decide), hne '\t' (by decide),
    hne nul (by decide), or_self, decide_false]

theorem value_append (token : List Char) (c : Char) :
    value (token ++ [c]) = value token * 10 + (c.toNat - 48) := by
  simp only [value, List.map_append, List.map_cons, List.map_nil, List.reverse_append,
    List.reverse_cons, List.reverse_nil, List.nil_append, List.cons_append, Nat.ofDigits_cons]
  omega

theorem toInt_congr {m n : ℕ} (h : m % 2 ^ 32 = n % 2 ^ 32) : toInt m = toInt n := by
  unfold toInt
  rw [Int.bmod_def, Int.bmod_def]
  omega

/-- What the code makes of a token that has no star to accept. -/
def numberOf (token : List Char) : ℤ :=
  if token ≠ [] ∧ token.all IsDigit then toInt (value token) else notAnInteger

theorem numberOf_digits {token : List Char} (h : token ≠ [] ∧ ∀ c ∈ token, IsDigit c) :
    numberOf token = toInt (value token) :=
  if_pos ⟨h.1, List.all_eq_true.mpr fun c hc => decide_eq_true (h.2 c hc)⟩

theorem numberOf_other {token : List Char} (h : ¬ (token ≠ [] ∧ ∀ c ∈ token, IsDigit c)) :
    numberOf token = notAnInteger :=
  if_neg fun h' => h ⟨h'.1, fun c hc => of_decide_eq_true (List.all_eq_true.mp h'.2 c hc)⟩

theorem endOfWord_eq {index0 index retval : ℕ} {done : List Char}
    (hindex : index = index0 + done.length) (hval : retval % 2 ^ 32 = value done % 2 ^ 32)
    (hdone : ∀ c ∈ done, IsDigit c) : endOfWord index0 index retval = numberOf done := by
  unfold endOfWord
  by_cases hd : done = []
  · have heq : index0 = index := by simp [hindex, hd]
    rw [if_pos heq, numberOf_other fun h => h.1 hd]
  · have hpos := List.length_pos_iff.mpr hd
    rw [if_neg (by omega), numberOf_digits ⟨hd, hdone⟩, toInt_congr hval]

theorem readDigits_fst (index0 : ℕ) (rest done : List Char) (index retval : ℕ)
    (hindex : index = index0 + done.length) (hval : retval % 2 ^ 32 = value done % 2 ^ 32)
    (hdone : ∀ c ∈ done, IsDigit c) :
    (readDigits index0 rest index retval).1 = numberOf (done ++ word rest) := by
  induction rest generalizing done index retval with
  | nil =>
    rw [word_nil, List.append_nil]
    exact endOfWord_eq hindex hval hdone
  | cons c rest ih =>
    unfold readDigits
    by_cases hc : IsDigit c
    · rw [if_pos (show '0' ≤ c ∧ c ≤ '9' from hc), word_cons (not_boundary_of_isDigit hc)]
      have hval' : (retval * 10 + (c.toNat - 48)) % 2 ^ 64 % 2 ^ 32 =
          value (done ++ [c]) % 2 ^ 32 := by
        rw [value_append]
        omega
      have hdone' : ∀ d ∈ done ++ [c], IsDigit d := by
        intro d hd
        rcases List.mem_append.mp hd with hd | hd
        · exact hdone d hd
        · rw [List.mem_singleton.mp hd]
          exact hc
      have hloop := ih (done ++ [c]) (index + 1) _ (by simp [hindex]; omega) hval' hdone'
      rw [hloop, List.append_assoc, List.singleton_append]
    · rw [if_neg (show ¬ ('0' ≤ c ∧ c ≤ '9') from hc)]
      by_cases hb : strAtWordBoundary c = true
      · rw [if_pos hb, word_boundary hb, List.append_nil]
        exact endOfWord_eq hindex hval hdone
      · -- the token goes on with a character that is no digit
        rw [if_neg hb, word_cons (by simpa using hb)]
        rw [numberOf_other fun h => hc (h.2 c (by simp))]

theorem getD_eq_star (line : List Char) (index : ℕ) :
    line.getD index nul = '*' ↔ (token line index).head? = some '*' := by
  have hword (rest : List Char) : (word rest).head? = some '*' ↔ rest.head? = some '*' := by
    cases rest with
    | nil => simp [word]
    | cons c rest =>
      by_cases hc : c = '*'
      · subst hc
        simp [word_cons (show strAtWordBoundary '*' = false by decide)]
      · by_cases hb : strAtWordBoundary c = true
        · simp [word_boundary hb, hc]
        · simp [word_cons (by simpa using hb), hc]
  unfold token
  rw [hword, List.head?_drop, List.getD_eq_getElem?_getD]
  cases (line)[index]? with
  | none => simp [nul]
  | some c => simp

theorem readInteger_fst (line : List Char) (index : ℕ) (acceptStar : Bool) :
    (readInteger line index acceptStar).1 =
      if acceptStar = true ∧ (token line index).head? = some '*' then anyMode
      else numberOf (token line index) := by
  unfold readInteger
  by_cases h : acceptStar = true ∧ line.getD index nul = '*'
  · rw [if_pos h, if_pos ⟨h.1, (getD_eq_star line index).mp h.2⟩]
  · rw [if_neg h, if_neg fun h' => h ⟨h'.1, (getD_eq_star line index).mpr h'.2⟩]
    exact readDigits_fst index _ [] index 0 rfl rfl (by simp)

/-- No number of 2^31 or more is taken for another one or for a sentinel it is not, and a token
that starts with a star is a star where one is accepted. -/
structure Unambiguous (acceptStar : Bool) (token : List Char) : Prop where
  overflow : ∀ n, Denotes token n → 2 ^ 31 ≤ n → n % 2 ^ 32 = 2 ^ 32 - 2
  star : acceptStar = true → token.head? = some '*' → token = ['*']

theorem not_denotes_of_star {token : List Char} (h : token.head? = some '*') (n : ℕ) :
    ¬ Denotes token n := by
  intro hd
  have hmem := List.mem_of_mem_head? (Option.mem_def.mpr h)
  have hstar := hd.digits '*' hmem
  exact absurd hstar (by decide)

theorem readsRight_anyMode {acceptStar : Bool} {token : List Char} (ha : acceptStar = true)
    (h : token.head? = some '*') :
    ReadsRight acceptStar token anyMode ↔ Unambiguous acceptStar token := by
  have hnot := not_denotes_of_star h
  constructor
  · intro hr
    exact ⟨fun n hn => absurd hn (hnot n), fun _ _ => (hr.star.mp rfl).2⟩
  · intro hu
    have hstar : IsStar acceptStar token := ⟨ha, hu.star ha h⟩
    refine ⟨fun n => ?_, ?_, ?_⟩
    · simp [hnot n, anyMode]
    · simp [hstar]
    · simp [hstar, anyMode, notAnInteger]

theorem toInt_cases (n : ℕ) : toInt n = (n % 2 ^ 32 : ℕ) ∧ n % 2 ^ 32 < 2 ^ 31 ∨
    toInt n = (n % 2 ^ 32 : ℕ) - 2 ^ 32 ∧ 2 ^ 31 ≤ n % 2 ^ 32 := by
  unfold toInt
  rw [Int.bmod_def]
  omega

theorem readsRight_small {acceptStar : Bool} {token : List Char} (hstar : ¬ IsStar acceptStar token)
    (hden : ∀ n, Denotes token n ↔ n = value token) (hlt : value token < 2 ^ 31) :
    ReadsRight acceptStar token (toInt (value token)) := by
  have hval : toInt (value token) = value token := by
    have hto := toInt_cases (value token)
    omega
  rw [hval]
  refine ⟨fun n => ?_, ?_, ?_⟩
  · rw [hden]
    omega
  · simp [hstar, anyMode]
  · have hex : HasNumber token := ⟨_, (hden _).mpr rfl, hlt⟩
    simp [hex, notAnInteger]

theorem readsRight_notAnInteger {acceptStar : Bool} {token : List Char}
    (hstar : ¬ IsStar acceptStar token) (hno : ¬ HasNumber token) :
    ReadsRight acceptStar token notAnInteger := by
  refine ⟨fun n => ?_, ?_, ?_⟩
  · simp only [show notAnInteger ≠ (n : ℤ) by unfold notAnInteger; omega, false_iff]
    exact fun hn => hno ⟨n, hn⟩
  · simp [hstar, anyMode, notAnInteger]
  · simp [hstar, hno]

theorem readsRight_numberOf {acceptStar : Bool} {token : List Char}
    (h : ¬ (acceptStar = true ∧ token.head? = some '*')) :
    ReadsRight acceptStar token (numberOf token) ↔ Unambiguous acceptStar token := by
  have hstar : ¬ IsStar acceptStar token := fun hs => h ⟨hs.1, by simp [hs.2]⟩
  have hhead : acceptStar = true → token.head? = some '*' → token = ['*'] :=
    fun ha hs => absurd ⟨ha, hs⟩ h
  by_cases hd : token ≠ [] ∧ ∀ c ∈ token, IsDigit c
  · have hden (n : ℕ) : Denotes token n ↔ n = value token :=
      ⟨fun hn => hn.eq.symm, fun hn => ⟨hd.1, hd.2, hn.symm⟩⟩
    rw [numberOf_digits hd]
    by_cases hlt : value token < 2 ^ 31
    · constructor
      · intro _
        refine ⟨fun n hn hle => ?_, hhead⟩
        rw [(hden n).mp hn] at hle
        omega
      · intro _
        exact readsRight_small hstar hden hlt
    · have hno : ¬ HasNumber token := by
        intro ⟨n, hn, hn'⟩
        rw [(hden n).mp hn] at hn'
        exact hlt hn'
      have hto := toInt_cases (value token)
      constructor
      · intro hr
        have hsent : toInt (value token) = notAnInteger := hr.neither.mpr ⟨hno, hstar⟩
        refine ⟨fun n hn _ => ?_, hhead⟩
        rw [(hden n).mp hn]
        unfold notAnInteger at hsent
        omega
      · intro hu
        have hmod := hu.overflow _ ((hden _).mpr rfl) (by omega)
        have hval : toInt (value token) = notAnInteger := by
          unfold notAnInteger
          omega
        rw [hval]
        exact readsRight_notAnInteger hstar hno
  · have hden (n : ℕ) : ¬ Denotes token n := fun hn => hd ⟨hn.ne_nil, hn.digits⟩
    have hno : ¬ HasNumber token := fun ⟨n, hn⟩ => hden n hn.1
    rw [numberOf_other hd]
    constructor
    · intro _
      exact ⟨fun n hn => absurd hn (hden n), hhead⟩
    · intro _
      exact readsRight_notAnInteger hstar hno

theorem readsRight_iff (line : List Char) (index : ℕ) (acceptStar : Bool) :
    ReadsRight acceptStar (token line index) (readInteger line index acceptStar).1 ↔
      Unambiguous acceptStar (token line index) := by
  rw [readInteger_fst]
  by_cases h : acceptStar = true ∧ (token line index).head? = some '*'
  · rw [if_pos h]
    exact readsRight_anyMode h.1 h.2
  · rw [if_neg h]
    exact readsRight_numberOf h

/-- The number 2^32 is read as the index 0. -/
theorem not_readsRight_overflow : ¬ ReadsRight false (token "4294967296 1".toList 0)
    (readInteger "4294967296 1".toList 0 false).1 := by
  intro h
  have hr : (readInteger "4294967296 1".toList 0 false).1 = (0 : ℕ) := by decide
  have hd := ((h.number 0).mp hr).1.eq
  exact absurd hd (by decide)

end FromL2
end Livingstone
