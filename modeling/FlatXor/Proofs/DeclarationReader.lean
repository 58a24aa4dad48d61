import FlatXor.Proofs.DeclarationText
import FlatXor.Proofs.JsonLines
import Mathlib.Data.List.Nodup

/-!
# Definitions are read back

An array definition is a line: a keyword, the name, a length in brackets, which can be left
out, and the entries in braces. None of these parts has a sign in it that stands between them,
so the signs tell where each of them ends, and a blank ends the keyword.
-/
namespace FlatXor

/-- A list is read back item by item. -/
lemma mapM_map_eq_some {α β : Type} {write : α → β} {read : β → Option α} {l : List α}
    (h : ∀ a ∈ l, read (write a) = some a) : (l.map write).mapM read = some l := by
  induction l with
  | nil => rfl
  | cons a l ih =>
    rw [List.map_cons, List.mapM_cons, h a List.mem_cons_self,
      ih fun b hb => h b (List.mem_cons_of_mem _ hb)]
    rfl

/-- An array definition, without regard to how its line is spaced. -/
structure ArrayText where
  keyword : String
  name : String
  /-- What stands in the brackets. -/
  length : String
  entries : List String
  deriving Repr, DecidableEq

namespace ArrayText

/-- Does the sign stand between the parts of a definition or at its end? -/
def isSign (c : Char) : Bool := c ∈ ['[', ']', '\x7b', '\x7d', ',', '\n']

/-- The line of a definition, without its end. -/
def line (a : ArrayText) : List Char :=
  a.keyword.toList ++ ' ' :: (a.name.toList ++ '[' :: (a.length.toList ++
    ']' :: ' ' :: '=' :: ' ' :: ((braced a.entries).toList ++ [';'])))

/-- The text before a pair of brackets, in it and after it. -/
def bracketed? (left right : Char) (text : List Char) :
    Option (List Char × List Char × List Char) :=
  match text.splitOn left with
  | [before, rest] =>
    match rest.splitOn right with
    | [inside, after] => some (before, inside, after)
    | _ => none
  | _ => none

/-- The text before the last blank, and after it. -/
def lastWord? (text : List Char) : Option (List Char × List Char) :=
  match text.reverse.dropWhile (· != ' ') with
  | [] => none
  | _ :: front => some (front.reverse, (text.reverse.takeWhile (· != ' ')).reverse)

/-- The entries between commas. Blanks do not count. -/
def entriesOf (text : List Char) : List String :=
  match text.filter (· != ' ') with
  | [] => []
  | c :: rest => ((c :: rest).splitOn ',').map String.ofList

/-- Reads the line of a definition. -/
def read? (text : List Char) : Option ArrayText := do
  let (front, length, body) ← bracketed? '[' ']' text
  let (keyword, name) ← lastWord? front
  let (_, entries, _) ← bracketed? '\x7b' '\x7d' body
  return ⟨String.ofList keyword, String.ofList name, String.ofList length, entriesOf entries⟩

/-- Reads the lines of definitions, each of which has an end. -/
def readLines? (text : List Char) : Option (List ArrayText) :=
  (text.splitOn '\n').dropLast.mapM read?

/-- The text has no signs and no blanks in it. -/
def IsWord (text : List Char) : Prop := ∀ c ∈ text, isSign c = false ∧ c ≠ ' '

instance (text : List Char) : Decidable (IsWord text) :=
  List.decidableBAll (fun c => isSign c = false ∧ c ≠ ' ') text

/-- The parts of the definition are free of the signs between them. -/
structure Plain (a : ArrayText) : Prop where
  keyword : ∀ c ∈ a.keyword.toList, isSign c = false
  name : IsWord a.name.toList
  length : IsWord a.length.toList
  entries : ∀ e ∈ a.entries, e.toList ≠ [] ∧ IsWord e.toList

/-! ## The parts of a line -/

lemma isWord_nil : IsWord [] := fun _ h => absurd h List.not_mem_nil

@[simp] lemma isWord_append {l l' : List Char} : IsWord (l ++ l') ↔ IsWord l ∧ IsWord l' :=
  List.forall_mem_append

@[simp] lemma isWord_cons {c : Char} {l : List Char} :
    IsWord (c :: l) ↔ (isSign c = false ∧ c ≠ ' ') ∧ IsWord l :=
  List.forall_mem_cons

@[simp] lemma isWord_toDigits (n : ℕ) : IsWord (Nat.toDigits 10 n) := by
  intro c hc
  have hdigit : c.isDigit = true := Nat.isDigit_of_mem_toDigits (by decide) (by decide) hc
  have hne : ∀ d : Char, d.isDigit = false → c ≠ d := by
    rintro d hd rfl
    rw [hd] at hdigit
    cases hdigit
  simp [isSign, hne]

/-- A text without signs has none of the signs in it. -/
lemma not_mem_of_isSign {text : List Char} {sign : Char} (h : ∀ c ∈ text, isSign c = false)
    (hsign : isSign sign = true) : sign ∉ text := by
  intro hmem
  rw [h sign hmem] at hsign
  cases hsign

lemma IsWord.not_mem {text : List Char} {sign : Char} (h : IsWord text)
    (hsign : isSign sign = true) : sign ∉ text :=
  not_mem_of_isSign (fun c hc => (h c hc).1) hsign

lemma IsWord.blank_not_mem {text : List Char} (h : IsWord text) : ' ' ∉ text :=
  fun hc => (h _ hc).2 rfl

lemma bracketed?_eq_some {left right : Char} {before inside after : List Char}
    (hbefore : left ∉ before) (hinside : left ∉ inside ∧ right ∉ inside)
    (hafter : left ∉ after ∧ right ∉ after) (hne : left ≠ right) :
    bracketed? left right (before ++ left :: (inside ++ right :: after)) =
      some (before, inside, after) := by
  have hrest : left ∉ inside ++ right :: after := by simp [hinside.1, hafter.1, hne]
  rw [bracketed?, List.splitOn_append_cons_self_of_not_mem hbefore,
    List.splitOn_eq_singleton hrest]
  simp only [List.splitOn_append_cons_self_of_not_mem hinside.2,
    List.splitOn_eq_singleton hafter.2]

lemma lastWord?_eq_some {front word : List Char} (h : ' ' ∉ word) :
    lastWord? (front ++ ' ' :: word) = some (front, word) := by
  have hword : ∀ c ∈ word.reverse, (c != ' ') = true := by
    intro c hc
    rw [bne_iff_ne]
    rintro rfl
    exact h (List.mem_reverse.mp hc)
  have htext : (front ++ ' ' :: word).reverse = word.reverse ++ ' ' :: front.reverse := by simp
  rw [lastWord?, htext, List.dropWhile_append_of_pos hword, List.takeWhile_append_of_pos hword]
  simp

/-- Without the blanks the entries stand between single commas. -/
lemma filter_intercalate {entries : List String} (h : ∀ e ∈ entries, ' ' ∉ e.toList) :
    ([',', ' '].intercalate (entries.map String.toList)).filter (· != ' ') =
      [','].intercalate (entries.map String.toList) := by
  induction entries with
  | nil => rfl
  | cons e entries ih =>
    have he : e.toList.filter (· != ' ') = e.toList := by
      rw [List.filter_eq_self]
      intro c hc
      rw [bne_iff_ne]
      rintro rfl
      exact h e List.mem_cons_self hc
    have hrest := ih fun d hd => h d (List.mem_cons_of_mem _ hd)
    cases entries with
    | nil => rw [List.map_singleton, List.intercalate_singleton, List.intercalate_singleton, he]
    | cons d entries =>
      rw [List.map_cons, List.map_cons, List.intercalate_cons_cons, List.intercalate_cons_cons,
        ← List.map_cons, List.filter_append, List.filter_append, he, hrest]
      rfl

/-- Entries are read back from between the braces. -/
theorem entriesOf_intercalate {entries : List String}
    (h : ∀ e ∈ entries, e.toList ≠ [] ∧ IsWord e.toList) :
    entriesOf (' ' :: ([',', ' '].intercalate (entries.map String.toList) ++ [' '])) =
      entries := by
  have hblank : ∀ e ∈ entries, ' ' ∉ e.toList := fun e he => (h e he).2.blank_not_mem
  have hfilter : (' ' :: ([',', ' '].intercalate (entries.map String.toList) ++ [' '])).filter
      (· != ' ') = [','].intercalate (entries.map String.toList) := by
    rw [List.filter_cons_of_neg (by decide), List.filter_append, filter_intercalate hblank]
    simp
  cases entries with
  | nil => rfl
  | cons e entries =>
    obtain ⟨c, tail, hcons⟩ := List.exists_cons_of_ne_nil (h e List.mem_cons_self).1
    obtain ⟨tail', hstart⟩ := Json.exists_intercalate_eq_cons hcons entries
    have hcomma : ∀ text ∈ (e :: entries).map String.toList, ',' ∉ text := by
      intro text htext hc
      obtain ⟨d, hd, rfl⟩ := List.mem_map.mp htext
      exact (h d hd).2.not_mem rfl hc
    have hsplit : ([','].intercalate ((e :: entries).map String.toList)).splitOn ',' =
        (e :: entries).map String.toList :=
      List.splitOn_intercalate _ hcomma (List.cons_ne_nil _ _)
    rw [entriesOf, hfilter, hstart]
    simp only
    rw [← hstart, hsplit, List.map_map]
    calc (e :: entries).map (String.ofList ∘ String.toList)
        = (e :: entries).map id := List.map_congr_left fun _ _ => String.ofList_toList
      _ = e :: entries := List.map_id _

/-- Between the entries of a plain definition there are commas, and no other signs. -/
lemma not_mem_intercalate {entries : List String} {sign : Char}
    (h : ∀ e ∈ entries, e.toList ≠ [] ∧ IsWord e.toList)
    (hsign : isSign sign = true) (hcomma : sign ≠ ',') :
    sign ∉ [',', ' '].intercalate (entries.map String.toList) := by
  intro hmem
  obtain hsep | ⟨text, htext, hc⟩ := mem_of_mem_intercalate hmem
  · simp only [List.mem_cons, hcomma, List.not_mem_nil, or_false, false_or] at hsep
    rw [hsep] at hsign
    cases hsign
  · obtain ⟨e, he, rfl⟩ := List.mem_map.mp htext
    exact (h e he).2.not_mem hsign hc

/-- What follows the name: the entries in braces, with the equals sign before them. -/
lemma toList_initializer (entries : List String) :
    ' ' :: '=' :: ' ' :: ((braced entries).toList ++ [';']) = [' ', '=', ' '] ++ '\x7b' ::
      ((' ' :: ([',', ' '].intercalate (entries.map String.toList) ++ [' '])) ++
        '\x7d' :: [';']) := by
  simp [toList_braced]

/-- A definition whose parts are free of the signs is read back. -/
theorem read?_line {a : ArrayText} (ha : a.Plain) : read? a.line = some a := by
  have hkeyword {sign} (h : isSign sign = true) := not_mem_of_isSign ha.keyword h
  have hinside {sign} (h : isSign sign = true) (hcomma : sign ≠ ',') :=
    not_mem_intercalate ha.entries h hcomma
  have hopen : isSign '[' = true := rfl
  have hclose : isSign ']' = true := rfl
  have hbrackets : bracketed? '[' ']' a.line =
      some (a.keyword.toList ++ ' ' :: a.name.toList, a.length.toList,
        ' ' :: '=' :: ' ' :: ((braced a.entries).toList ++ [';'])) := by
    have hline : a.line = (a.keyword.toList ++ ' ' :: a.name.toList) ++ '[' :: (a.length.toList ++
        ']' :: ' ' :: '=' :: ' ' :: ((braced a.entries).toList ++ [';'])) := by
      simp [line]
    rw [hline]
    apply bracketed?_eq_some
    · simp [hkeyword hopen, ha.name.not_mem hopen]
    · exact ⟨ha.length.not_mem rfl, ha.length.not_mem rfl⟩
    · simp [toList_braced, hinside hopen, hinside hclose]
    · decide
  have hword : lastWord? (a.keyword.toList ++ ' ' :: a.name.toList) =
      some (a.keyword.toList, a.name.toList) :=
    lastWord?_eq_some ha.name.blank_not_mem
  have hbraces : bracketed? '\x7b' '\x7d' (' ' :: '=' :: ' ' ::
      ((braced a.entries).toList ++ [';'])) = some ([' ', '=', ' '],
        ' ' :: ([',', ' '].intercalate (a.entries.map String.toList) ++ [' ']), [';']) := by
    rw [toList_initializer]
    apply bracketed?_eq_some
    · decide
    · simp [hinside (rfl : isSign '\x7b' = true), hinside (rfl : isSign '\x7d' = true)]
    · decide
    · decide
  simp only [read?, hbrackets, Option.bind_eq_bind, Option.bind_some, hword, hbraces,
    entriesOf_intercalate ha.entries, String.ofList_toList, Option.pure_def]

/-- The line of a plain definition has no line end in it. -/
lemma newline_not_mem_line {a : ArrayText} (ha : a.Plain) : '\n' ∉ a.line := by
  have hsign : isSign '\n' = true := rfl
  have hentries := not_mem_intercalate ha.entries hsign (by decide)
  simp [line, toList_braced, not_mem_of_isSign ha.keyword hsign, ha.name.not_mem hsign,
    ha.length.not_mem hsign, hentries]

/-- The lines of plain definitions are read back. -/
theorem readLines?_lines {l : List ArrayText} (h : ∀ a ∈ l, a.Plain) :
    readLines? (l.flatMap fun a => a.line ++ ['\n']) = some l := by
  have hlines : (l.flatMap fun a => a.line ++ ['\n']).splitOn '\n' = l.map line ++ [[]] := by
    rw [← splitOn_lines, List.flatMap_map]
    intro text htext
    obtain ⟨a, ha, rfl⟩ := List.mem_map.mp htext
    exact newline_not_mem_line (h a ha)
  rw [readLines?, hlines, List.dropLast_concat]
  exact mapM_map_eq_some fun a ha => read?_line (h a ha)

end ArrayText

end FlatXor
