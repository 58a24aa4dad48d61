import FlatXor.CommandLine
import Mathlib.Data.List.TakeDrop

/-!
# What a command line gives to an option

The arguments show which values they give to an option, without regard to the order in which
they are read and to what is known at which level: the value stands behind the name in the same
argument or in the next one. A flag has no value, so it is given where its word stands alone.
-/
namespace FlatXor

/-- How an argument names an option. -/
inductive OptionName where
  | word (text : List Char)
  | letter (c : Char)
  deriving Repr, DecidableEq

/-- The value behind a letter. An equals sign may stand between. -/
def valueBehind? : List Char → Option String
  | [] => none
  | '=' :: value => some (String.ofList value)
  | value => some (String.ofList value)

/-- The name in an argument, and the value behind it. -/
def namedOption? : List Char → Option (OptionName × Option String)
  | '-' :: '-' :: rest =>
    match rest.span (· != '=') with
    | (word, []) => some (.word word, none)
    | (word, _ :: value) => some (.word word, some (String.ofList value))
  | '-' :: c :: rest => some (.letter c, valueBehind? rest)
  | _ => none

/-- An option without a value behind it is the whole argument. -/
lemma toList_of_namedOption? {text : List Char} {name : OptionName}
    (h : namedOption? text = some (name, none)) :
    (∃ word, name = .word word ∧ text = '-' :: '-' :: word) ∨ ∃ c, name = .letter c := by
  unfold namedOption? at h
  split at h
  · next rest =>
    split at h
    · next word hspan =>
      obtain ⟨rfl, -⟩ := Prod.mk.inj (Option.some.inj h)
      have hrest := List.takeWhile_append_dropWhile (p := (· != '=')) (l := rest)
      rw [List.span_eq_takeWhile_dropWhile] at hspan
      obtain ⟨hword, hend⟩ := Prod.mk.inj hspan
      rw [hword, hend, List.append_nil] at hrest
      exact .inl ⟨word, rfl, by rw [hrest]⟩
    · cases h
  · next c rest _ =>
    exact .inr ⟨c, (Prod.mk.inj (Option.some.inj h)).1.symm⟩
  · cases h

/-- A text that starts with no hyphen, or is one, names no option. -/
lemma namedOption?_eq_none {text : List Char} (hword : ∀ rest, text = '-' :: '-' :: rest → False)
    (hletter : ∀ c rest, text = '-' :: c :: rest → False) : namedOption? text = none := by
  unfold namedOption?
  split
  · next rest => exact (hword rest rfl).elim
  · next c rest _ => exact (hletter c rest rfl).elim
  · rfl

namespace CommandOption

def isNamed (o : CommandOption) : OptionName → Bool
  | .word text => o.word.toList == text
  | .letter c => o.letter? == some c

/-- What an argument gives to the option by itself. A flag has the empty text for its value. -/
def textsIn (o : CommandOption) (text : String) : List String :=
  match namedOption? text.toList with
  | some (name, value) =>
    if o.isNamed name then
      match o.takesValue, value with
      | true, some value => [value]
      | false, none => [""]
      | _, _ => []
    else []
  | none => []

/-- Does the value of the option follow in the next argument? -/
def awaitedAfter (o : CommandOption) (text : String) : Bool :=
  match namedOption? text.toList with
  | some (name, none) => o.isNamed name && o.takesValue
  | _ => false

/-- The values that the arguments give to the option, up to two hyphens. -/
def valuesIn (o : CommandOption) : List String → List String
  | [] => []
  | "--" :: _ => []
  | text :: args =>
    o.textsIn text ++ (if o.awaitedAfter text then args.head?.toList else []) ++ o.valuesIn args

lemma valuesIn_cons (o : CommandOption) {text : String} (hstop : text ≠ "--") (args : List String) :
    o.valuesIn (text :: args) = o.textsIn text ++
      (if o.awaitedAfter text then args.head?.toList else []) ++ o.valuesIn args := by
  rw [valuesIn]
  exact hstop

/-- What the arguments give to the option. -/
def valueIn? {β : Type} (o : CommandOption) (parse : String → Option β) (args : List String) :
    Option β :=
  (o.valuesIn args).head?.bind parse

/-- Does the option stand among the arguments by its word, without a value? -/
def standsIn (o : CommandOption) (args : List String) : Bool :=
  (args.takeWhile (· != "--")).contains o.label

/-- A flag gives its value where its word is all there is. -/
lemma textsIn_of_flag {o : CommandOption} (htakes : o.takesValue = false)
    (hletter : o.letter? = none) (text : String) :
    o.textsIn text = if text = o.label then [""] else [] := by
  split_ifs with htext
  · have hname : namedOption? o.label.toList = some (.word o.word.toList, none) := by
      cases o with
      | static | index | noOscillationCheck => decide
      | config | logLevel | format | maxSteps => cases htakes
      | help | version => cases hletter
    simp [textsIn, htext, hname, isNamed, htakes]
  · cases hname : namedOption? text.toList with
    | none => simp [textsIn, hname]
    | some named =>
      obtain ⟨name, value⟩ := named
      have hword : value = none → o.isNamed name = false := by
        rintro rfl
        rw [← Bool.not_eq_true]
        intro hnamed
        obtain ⟨word, rfl, hchars⟩ | ⟨c, rfl⟩ := toList_of_namedOption? hname
        · apply htext
          rw [← String.toList_inj, hchars, ← beq_iff_eq.mp hnamed]
          simp [label]
        · simp [isNamed, hletter] at hnamed
      cases value <;> simp [textsIn, hname, htakes, hword]

lemma valuesIn_eq_nil_iff {o : CommandOption} (htakes : o.takesValue = false)
    (hletter : o.letter? = none) (args : List String) :
    o.valuesIn args = [] ↔ o.standsIn args = false := by
  induction args with
  | nil => exact ⟨fun _ => rfl, fun _ => rfl⟩
  | cons text args ih =>
    by_cases hstop : text = "--"
    · subst hstop
      exact ⟨fun _ => rfl, fun _ => rfl⟩
    · have hawaited : o.awaitedAfter text = false := by
        unfold awaitedAfter
        split <;> simp [htakes]
      have hstands : o.standsIn (text :: args) = (o.label == text || o.standsIn args) := by
        rw [standsIn, List.takeWhile_cons_of_pos (by simpa using hstop), List.contains_cons]
        rfl
      rw [o.valuesIn_cons hstop, hawaited, textsIn_of_flag htakes hletter, hstands]
      by_cases htext : text = o.label
      · simp [htext]
      · simpa [htext, Ne.symm htext] using ih

lemma eq_valueIn? {β : Type} {o : CommandOption} {parse : String → Option β} {args : List String}
    {x : Option β} (h : x.toList.map some = (o.valuesIn args).map parse) :
    x = o.valueIn? parse args := by
  rw [valueIn?]
  cases x with
  | none =>
    have hnil : o.valuesIn args = [] := by simpa using h.symm
    rw [hnil]
    rfl
  | some y =>
    cases hvalues : o.valuesIn args with
    | nil => simp [hvalues] at h
    | cons text texts =>
      rw [hvalues] at h
      exact (List.cons.inj h).1

lemma word_injective {o o' : CommandOption} (h : o.word.toList = o'.word.toList) : o = o' := by
  rw [String.toList_inj] at h
  cases o <;> cases o' <;> simp [word] at h ⊢

lemma letter_injective {o o' : CommandOption} {c : Char} (h : o.letter? = some c)
    (h' : o'.letter? = some c) : o = o' := by
  rw [← h'] at h
  cases o <;> cases o' <;> simp [letter?] at h h' ⊢

/-- No two options share a name. -/
lemma isNamed_eq_decide {o o' : CommandOption} {name : OptionName} (h : o'.isNamed name = true) :
    o.isNamed name = decide (o' = o) := by
  rw [Bool.eq_iff_iff, decide_eq_true_eq]
  constructor
  · intro ho
    cases name with
    | word text => exact word_injective ((beq_iff_eq.mp h).trans (beq_iff_eq.mp ho).symm)
    | letter c => exact letter_injective (beq_iff_eq.mp h) (beq_iff_eq.mp ho)
  · rintro rfl
    exact h

end CommandOption

end FlatXor
