import FlatXor.Proofs.JsonLeaves
import FlatXor.Proofs.SeparatedText
import FlatXor.TableRecord

/-!
# Records are read back

The text of a record holds no line end, and reading it gives the record. A draft gains
the members one after the other in the order in which they are written, so it refuses
none of them and lacks none at the end.
-/
namespace FlatXor.TableRecord

open Json

variable {r : TableRecord} {d : Draft} {key : Key} {rest : List Char}

/-- The numbers of the record are words. -/
structure Fits (r : TableRecord) : Prop where
  size : r.size < UInt64.size
  parities : r.parities < UInt64.size
  hammingDistance : r.hammingDistance < UInt64.size

/-- The text of a member. -/
def member (r : TableRecord) (key : Key) : List Char :=
  (encode key.label).toList ++ ':' :: (r.value key).toList

lemma toList_render (r : TableRecord) :
    r.render.toList = '\x7b' :: ([','].intercalate (Key.all.map r.member) ++ ['\x7d']) := by
  have hmember : (String.toList ∘ fun key => encode key.label ++ ":" ++ r.value key) = r.member := by
    funext key
    simp [member]
  simp [render, String.toList_intercalate, hmember]

lemma toList_jsonArray (items : List String) :
    (jsonArray items).toList = '[' :: ([','].intercalate (items.map String.toList) ++ [']']) := by
  simp [jsonArray, String.toList_intercalate]

/-! ## Reading -/

namespace Draft

/-- The draft with one more member of the record. -/
def fill (r : TableRecord) (d : Draft) : Key → Draft
  | .name => { d with name := some r.name }
  | .size => { d with size := some r.size }
  | .parities => { d with parities := some r.parities }
  | .hammingDistance => { d with hammingDistance := some r.hammingDistance }
  | .columns => { d with columns := some r.columns }
  | .rows => { d with rows := some r.rows }

@[simp] lemma has_fill (r : TableRecord) (d : Draft) (key other : Key) :
    (d.fill r key).has other = (key == other || d.has other) := by
  cases key <;> cases other <;> rfl

lemma has_empty (key : Key) : empty.has key = false := by
  cases key <;> rfl

/-- A draft with all members is the record. -/
lemma finish_fill_all (r : TableRecord) :
    (Key.all.foldl (fill r) empty).finish = some r := rfl

/-- The written value of a member is read back. -/
theorem readMember_value (hr : r.Fits) (d : Draft) (key : Key) (hrest : Delimited rest) :
    d.readMember key ((r.value key).toList ++ rest) = some (d.fill r key, rest) := by
  cases key with
  | name => simp [readMember, value, readString_encode, fill]
  | size => simp [readMember, value, readWord_toDigits hr.size hrest, fill]
  | parities => simp [readMember, value, readWord_toDigits hr.parities hrest, fill]
  | hammingDistance => simp [readMember, value, readWord_toDigits hr.hammingDistance hrest, fill]
  | columns =>
    have hwords : ∀ n ∈ r.columns.map UInt64.toNat,
        ReadsBack readWord (Nat.toDigits 10) n := by
      intro n hn
      obtain ⟨w, -, rfl⟩ := List.mem_map.mp hn
      exact readsBack_word w.toNat_lt
    have hread := readArray_written hwords rest
    simp only [List.map_map, Function.comp_def] at hread
    simp [readMember, value, toList_jsonArray, Function.comp_def, hread, fill]
  | rows =>
    have hread := readArray_written (fun text (_ : text ∈ r.rows) => readsBack_string text) rest
    simp [readMember, value, toList_jsonArray, Function.comp_def, hread, fill]

end Draft

lemma Key.ofLabel?_label (key : Key) : Key.ofLabel? key.label = some key := by
  cases key <;> rfl

namespace Draft

/-- A written member is read back, unless the draft has it already. -/
theorem readPair_member (hr : r.Fits) (hd : d.has key = false) (hrest : Delimited rest) :
    d.readPair (r.member key ++ rest) = some (d.fill r key, rest) := by
  have htext : r.member key ++ rest =
      (encode key.label).toList ++ ':' :: ((r.value key).toList ++ rest) := by
    simp [member]
  rw [htext]
  simp [readPair, readString_encode, expect_cons (c := ':') rfl, Key.ofLabel?_label, hd,
    readMember_value hr d key hrest]

/-- Different members are read back one after the other. -/
theorem readPairs_members (hr : r.Fits) {keys : List Key} (hne : keys ≠ []) (hkeys : keys.Nodup)
    (hd : ∀ key ∈ keys, d.has key = false) {fuel : ℕ} (hfuel : keys.length ≤ fuel)
    (rest : List Char) :
    d.readPairs fuel ([','].intercalate (keys.map r.member) ++ '\x7d' :: rest) =
      some (keys.foldl (fill r) d, rest) := by
  induction keys generalizing fuel d with
  | nil => exact absurd rfl hne
  | cons key keys ih =>
    obtain ⟨fuel, rfl⟩ := Nat.exists_eq_add_one_of_ne_zero (Nat.ne_zero_of_lt hfuel)
    have hkey : d.has key = false := hd key List.mem_cons_self
    cases keys with
    | nil =>
      rw [List.map_singleton, List.intercalate_singleton, readPairs,
        readPair_member hr hkey (delimited_brace rest)]
      simp [skipBlanks_of_not_blank (c := '\x7d') rfl]
    | cons next keys =>
      obtain ⟨hnot, hkeys⟩ := List.nodup_cons.mp hkeys
      have hd' : ∀ other ∈ next :: keys, (d.fill r key).has other = false := by
        intro other hother
        have hneq : key ≠ other := fun heq => hnot (heq ▸ hother)
        simp [hneq, hd other (List.mem_cons_of_mem _ hother)]
      have hrest := ih (List.cons_ne_nil next keys) hkeys hd' (Nat.le_of_succ_le_succ hfuel)
      rw [List.map_cons, List.map_cons, List.intercalate_cons_cons, List.append_assoc,
        List.append_assoc, List.singleton_append, ← List.map_cons, readPairs,
        readPair_member hr hkey (delimited_comma _)]
      simp only [skipBlanks_of_not_blank (c := ',') rfl]
      exact hrest

end Draft

/-- A record whose numbers are words is read back. -/
theorem parse?_render (hr : r.Fits) : parse? r.render = some r := by
  have hne : ∀ key ∈ Key.all, r.member key ≠ [] := by
    intro key _
    simp [member]
  have hfuel : Key.all.length ≤
      ([','].intercalate (Key.all.map r.member) ++ ['\x7d']).length := by
    rw [List.length_append]
    exact Nat.le_add_right_of_le (length_le_length_intercalate hne)
  have hall : Key.all ≠ [] := List.cons_ne_nil _ _
  have hpairs := Draft.readPairs_members hr hall (by decide) (fun key _ => Draft.has_empty key)
    hfuel []
  have hread : read r.render.toList = some (r, []) := by
    rw [toList_render, read, skipBlanks_of_not_blank (c := '\x7b') rfl]
    simp only [hpairs, Option.bind_eq_bind, Option.bind_some, Draft.finish_fill_all,
      Option.pure_def]
  rw [parse?, hread]
  rfl

/-! ## Line ends -/

lemma newline_not_mem_intercalate {α : Type} {write : α → List Char} {l : List α}
    (h : ∀ a ∈ l, '\n' ∉ write a) : '\n' ∉ [','].intercalate (l.map write) := by
  intro hmem
  obtain hsep | ⟨text, htext, hc⟩ := mem_of_mem_intercalate hmem
  · revert hsep
    decide
  · obtain ⟨a, ha, rfl⟩ := List.mem_map.mp htext
    exact h a ha hc

lemma newline_not_mem_toDigits (n : ℕ) : '\n' ∉ Nat.toDigits 10 n := by
  intro h
  have hdigit := Nat.isDigit_of_mem_toDigits (by decide) (by decide) h
  cases hdigit

/-- The digits of an escaped control character are no line ends. -/
lemma newline_not_mem_control {value : ℕ} (h : value < 32) :
    '\n' ∉ ['\\', 'u', '0', '0', hexDigits.getD (value / 16) '0',
      hexDigits.getD (value % 16) '0'] := by
  revert h value
  decide

lemma newline_not_mem_escape (c : Char) : '\n' ∉ escape c := by
  unfold escape
  split
  case h_8 hline _ _ =>
    split
    · next hcontrol =>
      rw [Char.lt_def, UInt32.lt_iff_toNat_lt] at hcontrol
      exact newline_not_mem_control hcontrol
    · next _ =>
      rw [List.mem_singleton]
      exact fun heq => hline heq.symm
  all_goals decide

lemma newline_not_mem_encode (s : String) : '\n' ∉ (encode s).toList := by
  simp [toList_encode, newline_not_mem_escape]

lemma newline_not_mem_value (r : TableRecord) (key : Key) : '\n' ∉ (r.value key).toList := by
  cases key with
  | name => exact newline_not_mem_encode r.name
  | size | parities | hammingDistance => simp [value, newline_not_mem_toDigits]
  | columns =>
    have hnot := newline_not_mem_intercalate
      fun w (_ : w ∈ r.columns) => newline_not_mem_toDigits w.toNat
    simpa [value, toList_jsonArray, Function.comp_def] using hnot
  | rows =>
    have hnot := newline_not_mem_intercalate fun s (_ : s ∈ r.rows) => newline_not_mem_encode s
    simpa [value, toList_jsonArray, Function.comp_def] using hnot

/-- The text of a record is one line. -/
theorem newline_not_mem_render (r : TableRecord) : '\n' ∉ r.render.toList := by
  have hmember : ∀ key, '\n' ∉ r.member key := by
    intro key
    simp [member, newline_not_mem_encode, newline_not_mem_value]
  have hnot := newline_not_mem_intercalate fun key (_ : key ∈ Key.all) => hmember key
  simpa [toList_render] using hnot

end FlatXor.TableRecord
