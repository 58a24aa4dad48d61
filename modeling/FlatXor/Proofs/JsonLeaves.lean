import FlatXor.Json.Scalar
import Mathlib.Data.List.Basic

/-!
# Written leaves are read back

Strings, numbers and arrays are read back from what is written of them, whatever text
follows. A string ends with its quote. A number ends before the character that follows it,
which in a record is a comma or a closing bracket. In an array the items are read one after
the other, so it is enough that each of them is read back in front of such a character.
-/
namespace FlatXor.Json

variable {c : Char} {rest : List Char}

lemma skipBlanks_of_not_blank (h : isBlank c = false) : skipBlanks (c :: rest) = c :: rest := by
  simp [skipBlanks, h]

/-- A token that is expected and comes next is taken. -/
lemma expect_cons (h : isBlank c = false) : expect c (c :: rest) = some rest := by
  rw [expect, skipBlanks_of_not_blank h, takeChar, if_pos rfl]

/-! ## Strings -/

/-- Decoding the part gives the character. -/
def StringPart.Denotes (part : StringPart) (c : Char) : Prop :=
  ∀ acc parts, decodeOnto acc (part :: parts) = decodeOnto (c :: acc) parts

lemma denotes_char (c : Char) : (StringPart.char c).Denotes c := fun _ _ => rfl

/-- A unit that is not a surrogate stands for the character with that number. -/
lemma denotes_unit {value : ℕ} (h : value < 0xD800) :
    (StringPart.unit value).Denotes (Char.ofNat value) := by
  have hhigh : isHighSurrogate value = false := by
    simp only [isHighSurrogate, Bool.and_eq_false_iff, decide_eq_false_iff_not]
    omega
  have hlow : isLowSurrogate value = false := by
    simp only [isLowSurrogate, Bool.and_eq_false_iff, decide_eq_false_iff_not]
    omega
  intro acc parts
  cases parts with
  | nil => simp [decodeOnto, hhigh, hlow]
  | cons part parts =>
    cases part with
    | char d => simp [decodeOnto, hhigh, hlow]
    | unit low => rw [decodeOnto, if_neg (by simp [hhigh]), if_neg (by simp [hlow])]

/-- The four digits of an escaped control character give its number. -/
lemma hexNumber?_control {value : ℕ} (h : value < 32) :
    hexNumber? ['0', '0', hexDigits.getD (value / 16) '0', hexDigits.getD (value % 16) '0'] =
      some value := by
  revert h value
  decide

/-- A character that is neither a quote nor a backslash nor a control character stands for
itself. -/
lemma scanOnto_plain {acc : List StringPart} (hquote : c ≠ '"') (hslash : c ≠ '\\')
    (hplain : ¬ c < ' ') : scanOnto acc (c :: rest) = scanOnto (.char c :: acc) rest := by
  conv_lhs => unfold scanOnto
  split
  case h_5 heq =>
    obtain ⟨rfl, rfl⟩ := List.cons.inj heq
    exact if_neg hplain
  all_goals simp_all

/-- What is written of a character is split off as one part, which denotes it. -/
theorem exists_part (c : Char) :
    ∃ part : StringPart, part.Denotes c ∧
      ∀ acc rest, scanOnto acc (escape c ++ rest) = scanOnto (part :: acc) rest := by
  unfold escape
  split
  case h_8 hquote hslash _ _ _ _ _ =>
    split
    · next hcontrol =>
      have hlt : c.toNat < 32 := by
        rw [Char.lt_def, UInt32.lt_iff_toNat_lt] at hcontrol
        exact hcontrol
      refine ⟨.unit c.toNat, ?_, fun acc rest => ?_⟩
      · have hunit := @denotes_unit c.toNat (by omega)
        rwa [Char.ofNat_toNat] at hunit
      · simp only [List.cons_append, List.nil_append, scanOnto, hexNumber?_control hlt]
    · next hplain =>
      exact ⟨.char c, denotes_char c, fun acc rest => scanOnto_plain hquote hslash hplain⟩
  -- the characters with an escape of their own
  all_goals exact ⟨_, denotes_char _, fun acc rest => rfl⟩

/-- What is written of the characters is split into parts that decode to them. -/
theorem exists_parts (l : List Char) :
    ∃ parts, (∀ acc rest, scanOnto acc (l.flatMap escape ++ '"' :: rest) =
        some (acc.reverse ++ parts, rest)) ∧
      ∀ acc, decodeOnto acc parts = some (acc.reverse ++ l) := by
  induction l with
  | nil => exact ⟨[], fun acc rest => by simp [scanOnto], fun acc => by simp [decodeOnto]⟩
  | cons c l ih =>
    obtain ⟨parts, hscan, hdecode⟩ := ih
    obtain ⟨part, hdenotes, hpart⟩ := exists_part c
    refine ⟨part :: parts, fun acc rest => ?_, fun acc => ?_⟩
    · rw [List.flatMap_cons, List.append_assoc, hpart, hscan]
      simp
    · rw [hdenotes, hdecode]
      simp

lemma toList_encode (s : String) :
    (encode s).toList = '"' :: (s.toList.flatMap escape ++ ['"']) := by
  simp [encode]

/-- A string is read back, whatever follows. -/
theorem readString_encode (s : String) (rest : List Char) :
    readString ((encode s).toList ++ rest) = some (s, rest) := by
  obtain ⟨parts, hscan, hdecode⟩ := exists_parts s.toList
  have hparts : scan (s.toList.flatMap escape ++ '"' :: rest) = some (parts, rest) := hscan [] rest
  have hs : decode parts = some s := by
    rw [decode, hdecode]
    simp
  rw [toList_encode, List.cons_append, List.append_assoc, List.singleton_append]
  simp [readString, expect_cons (c := '"') rfl, hparts, hs]

/-! ## Numbers -/

/-- Only zero starts with a zero. -/
lemma head?_toDigits (n : ℕ) : (Nat.toDigits 10 n).head? = some '0' → n = 0 := by
  induction n using Nat.strongRecOn with
  | ind n ih =>
    by_cases hn : n < 10
    · rw [Nat.toDigits_of_lt_base hn]
      clear ih
      revert n
      decide
    · have hbase : 10 ≤ n := Nat.le_of_not_lt hn
      rw [Nat.toDigits_of_base_le (by decide) hbase, List.head?_append_of_ne_nil _ Nat.toDigits_ne_nil]
      intro h
      have := ih (n / 10) (by omega) h
      omega

/-- The digits of a number denote it. -/
@[simp] theorem decimalValue_toDigits (n : ℕ) : decimalValue (Nat.toDigits 10 n) = n :=
  Nat.ofDigitChars_ten_toDigits

theorem decimalNumber?_toDigits (n : ℕ) : decimalNumber? (Nat.toDigits 10 n) = some n := by
  have hdigits : (Nat.toDigits 10 n).all Char.isDigit = true := by
    rw [List.all_eq_true]
    exact fun c hc => Nat.isDigit_of_mem_toDigits (by decide) (by decide) hc
  rw [decimalNumber?, hdigits, decimalValue_toDigits]
  simp [Nat.toDigits_ne_nil]

/-- The text starts with a character that may follow a value. -/
def Delimited (cs : List Char) : Prop :=
  ∃ c rest, cs = c :: rest ∧ (c = ',' ∨ c = ']' ∨ c = '\x7d')

lemma delimited_comma (rest : List Char) : Delimited (',' :: rest) := ⟨_, rest, rfl, .inl rfl⟩

lemma delimited_bracket (rest : List Char) : Delimited (']' :: rest) :=
  ⟨_, rest, rfl, .inr (.inl rfl)⟩

lemma delimited_brace (rest : List Char) : Delimited ('\x7d' :: rest) :=
  ⟨_, rest, rfl, .inr (.inr rfl)⟩

lemma isBlank_of_isDigit (h : c.isDigit = true) : isBlank c = false := by
  rw [Char.isDigit_iff_toNat] at h
  have hne : ∀ d : Char, d.toNat < 48 → (c == d) = false := by
    intro d hd
    rw [beq_eq_false_iff_ne]
    rintro rfl
    exact absurd h.1 (Nat.not_le_of_lt hd)
  simp [isBlank, hne]

/-- The first digit of a number. -/
lemma exists_toDigits_eq_cons (n : ℕ) :
    ∃ c rest, Nat.toDigits 10 n = c :: rest ∧ c.isDigit = true := by
  obtain ⟨c, rest, h⟩ := List.exists_cons_of_ne_nil (Nat.toDigits_ne_nil (n := n) (b := 10))
  have hmem : c ∈ Nat.toDigits 10 n := by simp [h]
  exact ⟨c, rest, h, Nat.isDigit_of_mem_toDigits (by decide) (by decide) hmem⟩

/-- A number that fits a word is read back. -/
theorem readWord_toDigits {n : ℕ} (hn : n < UInt64.size) (hrest : Delimited rest) :
    readWord (Nat.toDigits 10 n ++ rest) = some (n, rest) := by
  obtain ⟨c, digits, hcons, hc⟩ := exists_toDigits_eq_cons n
  obtain ⟨d, after, rfl, hd⟩ := hrest
  have hall : ∀ e ∈ Nat.toDigits 10 n, e.isDigit = true :=
    fun e he => Nat.isDigit_of_mem_toDigits (by decide) (by decide) he
  have hblank : skipBlanks (Nat.toDigits 10 n ++ d :: after) = Nat.toDigits 10 n ++ d :: after := by
    rw [hcons, List.cons_append, skipBlanks_of_not_blank (isBlank_of_isDigit hc)]
  have hnot : d.isDigit = false := by
    obtain rfl | rfl | rfl := hd <;> rfl
  have htake : (Nat.toDigits 10 n ++ d :: after).takeWhile Char.isDigit = Nat.toDigits 10 n := by
    rw [List.takeWhile_append_of_pos hall]
    simp [hnot]
  have hdrop : (Nat.toDigits 10 n ++ d :: after).dropWhile Char.isDigit = d :: after := by
    rw [List.dropWhile_append_of_pos hall]
    simp [hnot]
  have hzero : ((Nat.toDigits 10 n).head? == some '0' && decide (1 < (Nat.toDigits 10 n).length)) =
      false := by
    by_cases hhead : (Nat.toDigits 10 n).head? = some '0'
    · rw [head?_toDigits n hhead]
      rfl
    · simp [hhead]
  unfold readWord
  simp only [hblank, htake, hdrop, hzero, decimalValue_toDigits, if_pos hn]
  obtain rfl | rfl | rfl := hd <;> simp [hcons]

/-! ## Arrays -/

/-- The reader reads back what is written of `a`, which starts neither with a blank nor with
a closing bracket. -/
structure ReadsBack {α : Type} (item : Reader α) (write : α → List Char) (a : α) : Prop where
  read : ∀ rest, Delimited rest → item (write a ++ rest) = some (a, rest)
  start : ∃ c rest, write a = c :: rest ∧ isBlank c = false ∧ c ≠ ']'

theorem readsBack_word {n : ℕ} (hn : n < UInt64.size) :
    ReadsBack readWord (Nat.toDigits 10) n where
  read _ hrest := readWord_toDigits hn hrest
  start := by
    obtain ⟨c, rest, hcons, hc⟩ := exists_toDigits_eq_cons n
    refine ⟨c, rest, hcons, isBlank_of_isDigit hc, ?_⟩
    rintro rfl
    cases hc

theorem readsBack_string (s : String) : ReadsBack readString (fun s => (encode s).toList) s where
  read rest _ := readString_encode s rest
  start := ⟨'"', _, toList_encode s, rfl, by decide⟩

variable {α : Type} {item : Reader α} {write : α → List Char}

/-- Items between commas are read back one after the other. -/
theorem readItems_intercalate {l : List α} (h : ∀ a ∈ l, ReadsBack item write a) (hne : l ≠ [])
    {fuel : ℕ} (hfuel : l.length ≤ fuel) (acc : List α) (rest : List Char) :
    readItems item fuel acc ([','].intercalate (l.map write) ++ ']' :: rest) =
      some (acc.reverse ++ l, rest) := by
  induction l generalizing fuel acc with
  | nil => exact absurd rfl hne
  | cons a l ih =>
    obtain ⟨fuel, rfl⟩ := Nat.exists_eq_add_one_of_ne_zero (Nat.ne_zero_of_lt hfuel)
    have hread := (h a List.mem_cons_self).read
    cases l with
    | nil =>
      have hlast := hread (']' :: rest) (delimited_bracket rest)
      rw [List.map_singleton, List.intercalate_singleton, readItems, hlast]
      simp [skipBlanks_of_not_blank (c := ']') rfl]
    | cons b l =>
      have hitem := hread (',' :: ([','].intercalate ((b :: l).map write) ++ ']' :: rest))
        (delimited_comma _)
      have hrest := ih (fun d hd => h d (List.mem_cons_of_mem _ hd)) (List.cons_ne_nil b l)
        (Nat.le_of_succ_le_succ hfuel) (a :: acc)
      rw [List.map_cons, List.map_cons, List.intercalate_cons_cons, List.append_assoc,
        List.append_assoc, List.singleton_append, ← List.map_cons, readItems, hitem]
      simp only [skipBlanks_of_not_blank (c := ',') rfl]
      rw [hrest]
      simp

/-- Texts between commas have at least a character for each of them. -/
lemma length_le_length_intercalate {l : List α} (h : ∀ a ∈ l, write a ≠ []) :
    l.length ≤ ([','].intercalate (l.map write)).length := by
  induction l with
  | nil => exact Nat.zero_le _
  | cons a l ih =>
    have hpos : 0 < (write a).length := List.length_pos_iff.mpr (h a List.mem_cons_self)
    have hrest := ih fun b hb => h b (List.mem_cons_of_mem _ hb)
    cases l with
    | nil => rwa [List.map_singleton, List.intercalate_singleton]
    | cons b l =>
      rw [List.map_cons, List.map_cons, List.intercalate_cons_cons, ← List.map_cons]
      simp only [List.length_append, List.length_cons] at hrest ⊢
      omega

/-- Texts between commas start with the first text. -/
lemma exists_intercalate_eq_cons {a : α} {tail : List Char} (h : write a = c :: tail) (l : List α) :
    ∃ tail', [','].intercalate ((a :: l).map write) = c :: tail' := by
  cases l with
  | nil => exact ⟨tail, by rw [List.map_singleton, List.intercalate_singleton, h]⟩
  | cons b l =>
    exact ⟨_, by rw [List.map_cons, List.map_cons, List.intercalate_cons_cons, h]; rfl⟩

/-- An array is read back, whatever follows. -/
theorem readArray_written {l : List α} (h : ∀ a ∈ l, ReadsBack item write a) (rest : List Char) :
    readArray item ('[' :: ([','].intercalate (l.map write) ++ ']' :: rest)) = some (l, rest) := by
  cases l with
  | nil => simp [readArray, expect_cons (c := '[') rfl, skipBlanks_of_not_blank (c := ']') rfl]
  | cons a l =>
    have hne : ∀ b ∈ a :: l, write b ≠ [] := by
      intro b hb
      obtain ⟨c, tail, hcons, -⟩ := (h b hb).start
      rw [hcons]
      exact List.cons_ne_nil c tail
    have hfuel : (a :: l).length ≤
        ([','].intercalate ((a :: l).map write) ++ ']' :: rest).length := by
      rw [List.length_append]
      exact Nat.le_add_right_of_le (length_le_length_intercalate hne)
    have hitems := readItems_intercalate h (List.cons_ne_nil a l) hfuel [] rest
    obtain ⟨c, tail, hcons, hblank, hbracket⟩ := (h a List.mem_cons_self).start
    obtain ⟨tail', hstart⟩ := exists_intercalate_eq_cons hcons l
    rw [hstart, List.cons_append] at hitems ⊢
    simp only [readArray, expect_cons (c := '[') rfl, Option.bind_eq_bind, Option.bind_some,
      skipBlanks_of_not_blank hblank]
    split
    · next heq => exact absurd (List.cons.inj heq).1 hbracket
    · exact hitems

end FlatXor.Json
