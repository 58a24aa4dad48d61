import FlatXor.Proofs.OptionValues

/-!
# Reading what is given to an option

A reading that succeeds takes in the values that the arguments give to an option and no others,
each option at most once. The account of an option is what has been kept of it together with
the value that is still to be checked. One argument adds to it just what stands there.
-/
namespace FlatXor

/-! ## Chains that may fail -/

section

variable {ε ε' α β : Type} {x : Except ε α} {b : β}

lemma bind_eq_ok {f : α → Except ε β} : x >>= f = .ok b ↔ ∃ a, x = .ok a ∧ f a = .ok b := by
  cases x <;> simp [bind, Except.bind]

lemma map_eq_ok {f : α → β} : x.map f = .ok b ↔ ∃ a, x = .ok a ∧ f a = b := by
  cases x <;> simp [Except.map]

lemma mapError_eq_ok {f : ε → ε'} {a : α} : x.mapError f = .ok a ↔ x = .ok a := by
  cases x <;> simp [Except.mapError]

end

lemma Reading.arguments_cons {r : Reading} {text : String} (hstop : text ≠ "--")
    (args : List String) :
    r.arguments (text :: args) =
      match r.argument text with
      | .ok r => r.arguments args
      | .error e => .error e := by
  exact arguments.eq_3 r text args hstop

/-- What is read for the option is kept as what its text stands for, and nothing else changes
it. -/
structure Keeps {β : Type} (o : CommandOption) (parse : String → Option β)
    (get : Given → Option β) : Prop where
  value : ∀ {g o' text g'}, g.giveValue o' text = .ok g' →
    (get g').toList.map some = (get g).toList.map some ++ if o' = o then [parse text] else []
  flag : ∀ {g o' g'}, g.giveFlag o' = .ok g' →
    (get g').toList.map some = (get g).toList.map some ++ if o' = o then [parse ""] else []
  number : ∀ {g text g'}, g.giveNumber text = .ok g' → get g' = get g

namespace Keeps

variable {β : Type} {o : CommandOption} {parse : String → Option β} {get : Given → Option β}

/-- The values of an option that have been read, the one to be checked included. -/
def said (o : CommandOption) (parse : String → Option β) (get : Given → Option β) (r : Reading) :
    List (Option β) :=
  (get r.given).toList.map some ++
    match r.pending with
    | some (.option o' (some text)) => if o' = o then [parse text] else []
    | _ => []

variable {r r' : Reading} {o' : CommandOption} {text : String}

lemma settle (h : Keeps o parse get) (hr : r.settle = .ok r') :
    said o parse get r' = said o parse get r ∧ r'.pending = none ∧ r'.level = r.level ∧
      r.awaits = none := by
  obtain ⟨level, given, pending, numbers⟩ := r
  obtain ⟨g, hg, rfl⟩ := map_eq_ok.mp hr
  cases pending with
  | none =>
    obtain rfl := Except.ok.inj hg
    exact ⟨rfl, rfl, rfl, rfl⟩
  | some pending =>
    cases pending with
    | option o' value =>
      cases value with
      | none => cases hg
      | some text =>
        refine ⟨?_, rfl, rfl, rfl⟩
        simp [said, h.value (mapError_eq_ok.mp hg)]
    | number text =>
      refine ⟨?_, rfl, rfl, rfl⟩
      simp [said, h.number (mapError_eq_ok.mp hg)]

lemma attached (h : Keeps o parse get) (hr : r.attached o' text = .ok r') :
    said o parse get r' = said o parse get r ++ (if o' = o then [parse text] else []) ∧
      r'.awaits = none ∧ r'.level = r.level ∧ r.awaits = none := by
  obtain ⟨settled, hsettled, hr⟩ := bind_eq_ok.mp hr
  obtain ⟨g, hg, hr⟩ := bind_eq_ok.mp hr
  obtain rfl := Except.ok.inj hr
  obtain ⟨hsaid, hpending, hlevel, hawaits⟩ := h.settle hsettled
  refine ⟨?_, ?_, hlevel, hawaits⟩
  · rw [← hsaid]
    simp [said, hpending, h.value (mapError_eq_ok.mp hg)]
  · simp [Reading.awaits, hpending]

lemma alone (h : Keeps o parse get) (hr : r.alone o' = .ok r') :
    said o parse get r' =
        said o parse get r ++ (if o' = o ∧ o'.takesValue = false then [parse ""] else []) ∧
      r'.awaits = (if o'.takesValue then some o' else none) ∧ r'.level = r.level ∧
      r.awaits = none := by
  obtain ⟨settled, hsettled, hr⟩ := bind_eq_ok.mp hr
  obtain ⟨hsaid, hpending, hlevel, hawaits⟩ := h.settle hsettled
  rw [← hsaid]
  cases htakes : o'.takesValue with
  | true =>
    rw [htakes, if_pos rfl] at hr
    obtain rfl := Except.ok.inj hr
    refine ⟨?_, ?_, hlevel, hawaits⟩
    · simp [said, hpending]
    · simp [Reading.awaits]
  | false =>
    rw [htakes, if_neg (by simp)] at hr
    obtain ⟨g, hg, hr⟩ := bind_eq_ok.mp hr
    obtain rfl := Except.ok.inj hr
    refine ⟨?_, ?_, hlevel, hawaits⟩
    · simp [said, hpending, h.flag hg]
    · simp [Reading.awaits, hpending]

lemma takeNumber (h : Keeps o parse get) (hr : r.number text = .ok r') :
    said o parse get r' = said o parse get r ∧ r'.awaits = none ∧ r'.level = r.level ∧
      r.awaits = none := by
  unfold Reading.number at hr
  split_ifs at hr
  obtain ⟨settled, hsettled, hr⟩ := bind_eq_ok.mp hr
  obtain rfl := Except.ok.inj hr
  obtain ⟨hsaid, hpending, hlevel, hawaits⟩ := h.settle hsettled
  refine ⟨?_, rfl, hlevel, hawaits⟩
  rw [← hsaid]
  simp [said, hpending]

/-- Reading has gone on from `r` to `r'`, with the given texts for the option. Is its value now
awaited? -/
structure Takes (o : CommandOption) (parse : String → Option β) (get : Given → Option β)
    (r r' : Reading) (texts : List String) (awaited : Bool) : Prop where
  said : said o parse get r' = said o parse get r ++ texts.map parse
  awaits : r'.awaits = some o ↔ awaited = true
  level : r'.level = r.level

/-- An option alone in its argument has no value, or awaits one. -/
lemma takes_alone (h : Keeps o parse get) {name : OptionName}
    (hname : namedOption? text.toList = some (name, none)) (hnamed : o'.isNamed name = true)
    (hr : r.alone o' = .ok r') :
    Takes o parse get r r' (o.textsIn text) (o.awaitedAfter text) ∧ r.awaits = none := by
  have hnamed := CommandOption.isNamed_eq_decide (o := o) hnamed
  obtain ⟨hsaid, hawaits, hlevel, hfree⟩ := h.alone hr
  refine ⟨⟨?_, ?_, hlevel⟩, hfree⟩
  · rw [hsaid, CommandOption.textsIn, hname]
    by_cases heq : o' = o
    · subst heq
      cases htakes : o'.takesValue <;> simp [hnamed]
    · simp [hnamed, heq]
  · rw [hawaits, CommandOption.awaitedAfter, hname]
    by_cases heq : o' = o
    · subst heq
      cases htakes : o'.takesValue <;> simp [hnamed]
    · cases htakes : o'.takesValue <;> simp [hnamed, heq]

/-- An option with its value in the same argument takes it in. -/
lemma takes_attached (h : Keeps o parse get) {name : OptionName} {value : String}
    (hname : namedOption? text.toList = some (name, some value)) (hnamed : o'.isNamed name = true)
    (htakes : o'.takesValue = true) (hr : r.attached o' value = .ok r') :
    Takes o parse get r r' (o.textsIn text) (o.awaitedAfter text) ∧ r.awaits = none := by
  have hnamed := CommandOption.isNamed_eq_decide (o := o) hnamed
  obtain ⟨hsaid, hawaits, hlevel, hfree⟩ := h.attached hr
  refine ⟨⟨?_, ?_, hlevel⟩, hfree⟩
  · rw [hsaid, CommandOption.textsIn, hname]
    by_cases heq : o' = o
    · subst heq
      simp [hnamed, htakes]
    · simp [hnamed, heq]
  · simp [hawaits, CommandOption.awaitedAfter, hname]

lemma byWord (h : Keeps o parse get) {rest : List Char} (htext : text.toList = '-' :: '-' :: rest)
    (hr : r.byWord rest = .ok r') :
    Takes o parse get r r' (o.textsIn text) (o.awaitedAfter text) ∧ r.awaits = none := by
  unfold Reading.byWord at hr
  rcases hspan : rest.span (· != '=') with ⟨word, tail⟩
  rw [hspan] at hr
  cases hfind : r.level.options.find? (·.word.toList == word) with
  | none =>
    simp only [hfind] at hr
    cases hr
  | some o' =>
    have hnamed : o'.isNamed (.word word) = true := by
      simpa [CommandOption.isNamed] using List.find?_some hfind
    simp only [hfind] at hr
    cases tail with
    | nil => exact h.takes_alone (by rw [htext, namedOption?, hspan]) hnamed hr
    | cons c value =>
      cases htakes : o'.takesValue with
      | false => simp [htakes] at hr
      | true =>
        simp only [htakes, if_true] at hr
        exact h.takes_attached (by rw [htext, namedOption?, hspan]) hnamed htakes hr

/-- An option with a letter and without a value ends the reading. -/
lemma takesValue_of_alone {c : Char} (hletter : o'.letter? = some c)
    (hr : r.alone o' = .ok r') : o'.takesValue = true := by
  by_contra htakes
  obtain ⟨settled, -, hr⟩ := bind_eq_ok.mp hr
  rw [if_neg htakes] at hr
  obtain ⟨g, hg, -⟩ := bind_eq_ok.mp hr
  cases o' with
  | config | format => exact htakes rfl
  | help | version => cases hg
  | logLevel | static | index | maxSteps | noOscillationCheck => cases hletter

lemma byLetters (h : Keeps o parse get) {c : Char} {rest : List Char} (hc : c ≠ '-')
    (htext : text.toList = '-' :: c :: rest) (hr : r.byLetters (c :: rest) = .ok r') :
    Takes o parse get r r' (o.textsIn text) (o.awaitedAfter text) ∧ r.awaits = none := by
  rw [Reading.byLetters] at hr
  cases hfind : r.level.options.find? (·.letter? == some c) with
  | none =>
    simp only [hfind] at hr
    cases hr
  | some o' =>
    have hletter : o'.letter? = some c := by simpa using List.find?_some hfind
    have hnamed : o'.isNamed (.letter c) = true := by simp [CommandOption.isNamed, hletter]
    have htakes : o'.takesValue = true := by
      by_contra htakes
      cases halone : r.alone o' with
      | error e => simp [hfind, htakes, halone] at hr
      | ok settled => exact htakes (takesValue_of_alone hletter halone)
    simp only [hfind, htakes, if_true] at hr
    cases rest with
    | nil => exact h.takes_alone (by simp [htext, namedOption?, valueBehind?]) hnamed hr
    | cons d value =>
      by_cases hd : d = '='
      · subst hd
        exact h.takes_attached (by simp [htext, namedOption?, valueBehind?]) hnamed htakes hr
      · have hname : namedOption? text.toList =
            some (.letter c, some (String.ofList (d :: value))) := by
          simp [htext, namedOption?, valueBehind?, hd]
        exact h.takes_attached hname hnamed htakes (by simpa [hd] using hr)

/-- An argument is the value that is awaited, or it gives what is in it. -/
theorem argument (h : Keeps o parse get) (hr : r.argument text = .ok r') :
    Takes o parse get r r' ((if r.awaits = some o then [text] else []) ++ o.textsIn text)
      (o.awaitedAfter text) := by
  unfold Reading.argument at hr
  split at hr
  · next rest htext =>
    obtain ⟨htakes, hfree⟩ := h.byWord htext hr
    simpa [hfree] using htakes
  · next c rest hc htext =>
    obtain ⟨htakes, hfree⟩ := h.byLetters (by rintro rfl; exact hc rfl) htext hr
    simpa [hfree] using htakes
  · next hword hletter =>
    have hnone := namedOption?_eq_none hword hletter
    cases hawaits : r.awaits with
    | none =>
      simp only [hawaits] at hr
      obtain ⟨hsaid, hawaits', hlevel, -⟩ := h.takeNumber hr
      refine ⟨?_, ?_, hlevel⟩
      · simp [hsaid, CommandOption.textsIn, hnone]
      · simp [hawaits', CommandOption.awaitedAfter, hnone]
    | some o' =>
      simp only [hawaits] at hr
      obtain rfl := Except.ok.inj hr
      have hpending : r.pending = some (.option o' none) := by
        unfold Reading.awaits at hawaits
        split at hawaits
        · next hpending => rw [hpending, Option.some.inj hawaits]
        · cases hawaits
      refine ⟨?_, ?_, rfl⟩
      · by_cases heq : o' = o
        · simp [said, hpending, CommandOption.textsIn, hnone, heq]
        · simp [said, hpending, CommandOption.textsIn, hnone, heq]
      · simp [Reading.awaits, CommandOption.awaitedAfter, hnone]

/-- Behind two hyphens nothing is given to an option. -/
lemma numbersOnly (h : Keeps o parse get) {args : List String} (hr : r.numbersOnly args = .ok r')
    (hend : r'.awaits = none) : said o parse get r' = said o parse get r ∧ r.awaits = none := by
  induction args generalizing r with
  | nil =>
    obtain rfl := Except.ok.inj hr
    exact ⟨rfl, hend⟩
  | cons text args ih =>
    rw [Reading.numbersOnly] at hr
    cases hnumber : r.number text with
    | error e =>
      rw [hnumber] at hr
      cases hr
    | ok next =>
      rw [hnumber] at hr
      obtain ⟨hsaid, -, -, hfree⟩ := h.takeNumber hnumber
      obtain ⟨hrest, -⟩ := ih hr
      exact ⟨hrest.trans hsaid, hfree⟩

/-- A reading of the arguments of a command takes in what they give to the option. -/
theorem arguments (h : Keeps o parse get) {args : List String} (hr : r.arguments args = .ok r')
    (hend : r'.awaits = none) :
    said o parse get r' = said o parse get r ++
      ((if r.awaits = some o then args.head?.toList else []) ++ o.valuesIn args).map parse := by
  induction args generalizing r with
  | nil =>
    obtain rfl := Except.ok.inj hr
    simp [CommandOption.valuesIn]
  | cons text args ih =>
    by_cases hstop : text = "--"
    · subst hstop
      obtain ⟨hsaid, hfree⟩ := h.numbersOnly hr hend
      simp [hsaid, hfree, CommandOption.valuesIn]
    · rw [Reading.arguments_cons hstop] at hr
      cases hargument : r.argument text with
      | error e =>
        rw [hargument] at hr
        cases hr
      | ok next =>
        rw [hargument] at hr
        have htakes := h.argument hargument
        have hawaits : (if next.awaits = some o then args.head?.toList else []) =
            if o.awaitedAfter text then args.head?.toList else [] := by
          simp only [htakes.awaits]
        rw [ih hr, htakes.said, hawaits, o.valuesIn_cons hstop]
        simp [List.append_assoc]

end Keeps

namespace Reading

variable {r r' : Reading} {text : String} {name : OptionName} {value : Option String}

/-- An option with which a reading goes on is known at the level. -/
lemma exists_named (hr : r.argument text = .ok r')
    (hname : namedOption? text.toList = some (name, value)) :
    ∃ o ∈ r.level.options, o.isNamed name = true := by
  unfold argument at hr
  split at hr
  · next rest htext =>
    unfold byWord at hr
    rcases hspan : rest.span (· != '=') with ⟨word, tail⟩
    have hword : name = .word word := by
      rw [htext, namedOption?, hspan] at hname
      cases tail with
      | nil => exact (Prod.mk.inj (Option.some.inj hname)).1.symm
      | cons _ value => exact (Prod.mk.inj (Option.some.inj hname)).1.symm
    rw [hspan] at hr
    cases hfind : r.level.options.find? (·.word.toList == word) with
    | none =>
      simp only [hfind] at hr
      cases hr
    | some o =>
      refine ⟨o, List.mem_of_find?_eq_some hfind, ?_⟩
      simpa [hword, CommandOption.isNamed] using List.find?_some hfind
  · next c rest hc htext =>
    have hletter : name = .letter c := by
      simp_all [namedOption?]
    rw [byLetters] at hr
    cases hfind : r.level.options.find? (·.letter? == some c) with
    | none =>
      simp only [hfind] at hr
      cases hr
    | some o =>
      refine ⟨o, List.mem_of_find?_eq_some hfind, ?_⟩
      simpa [hletter, CommandOption.isNamed] using List.find?_some hfind
  · next hword hletter =>
    rw [namedOption?_eq_none hword hletter] at hname
    cases hname

/-- An argument with which a reading goes on gives nothing to an option that the level does not
know. -/
lemma textsIn_of_unknown {o : CommandOption} (hr : r.argument text = .ok r')
    (hunknown : o ∉ r.level.options) : o.textsIn text = [] ∧ o.awaitedAfter text = false := by
  cases hname : namedOption? text.toList with
  | none => simp [CommandOption.textsIn, CommandOption.awaitedAfter, hname]
  | some named =>
    obtain ⟨name, value⟩ := named
    obtain ⟨o', hmem, hnamed⟩ := exists_named hr hname
    have hne : o' ≠ o := fun heq => hunknown (heq ▸ hmem)
    have hnot : o.isNamed name = false := by
      rw [CommandOption.isNamed_eq_decide hnamed, decide_eq_false hne]
    cases value <;> simp [CommandOption.textsIn, CommandOption.awaitedAfter, hname, hnot]

end Reading

/-! ## What is kept -/

namespace Given

variable {g g' : Given} {o : CommandOption} {text : String}

/-- A value is given once, and only an option with a value is given one. -/
lemma giveValue_eq_ok (h : g.giveValue o text = .ok g') :
    (o = .config ∧ g.config = none ∧ g' = { g with config := some text }) ∨
      (o = .logLevel ∧ g.logLevel = none ∧ g' = { g with logLevel := some text }) ∨
      (o = .format ∧ g.format = none ∧
        ∃ x, OutputFormat.ofWord? text = some x ∧ g' = { g with format := some x }) ∨
      (o = .maxSteps ∧ g.maxSteps = none ∧
        ∃ n, wordNumber? text = some n ∧ g' = { g with maxSteps := some n }) := by
  unfold giveValue at h
  split_ifs at h with hhas
  split at h
  · next hset =>
    obtain rfl := Except.ok.inj h
    cases o with
    | config =>
      rw [setValue?] at hset
      split_ifs at hset
      obtain rfl := Option.some.inj hset
      simp_all [has]
    | logLevel =>
      obtain rfl := Option.some.inj hset
      simp_all [has]
    | format =>
      obtain ⟨x, hx, rfl⟩ := Option.map_eq_some_iff.mp hset
      simp_all [has]
    | maxSteps =>
      obtain ⟨n, hn, rfl⟩ := Option.map_eq_some_iff.mp hset
      simp_all [has]
    | static | index | noOscillationCheck | help | version => cases hset
  · cases h

/-- A number changes nothing but the list of numbers. -/
lemma giveNumber_eq_ok (h : g.giveNumber text = .ok g') :
    ∃ n, g' = { g with numbers := g.numbers ++ [n] } := by
  unfold giveNumber at h
  split at h
  · next n _ => exact ⟨n, (Except.ok.inj h).symm⟩
  · cases h

/-- A flag is given once, and only a flag is given without a value. -/
lemma giveFlag_eq_ok (h : g.giveFlag o = .ok g') :
    (o = .static ∧ g.static = false ∧ g' = { g with static := true }) ∨
      (o = .index ∧ g.index = false ∧ g' = { g with index := true }) ∨
      (o = .noOscillationCheck ∧ g.noOscillationCheck = false ∧
        g' = { g with noOscillationCheck := true }) := by
  unfold giveFlag at h
  split_ifs at h with hhas
  cases o <;> simp_all [has]

end Given

/-- The format is what the word behind its option stands for. -/
theorem keeps_format : Keeps .format OutputFormat.ofWord? Given.format where
  value := by
    intro g o' text g' h
    obtain ⟨rfl, -, rfl⟩ | ⟨rfl, -, rfl⟩ | ⟨rfl, hnew, x, hx, rfl⟩ | ⟨rfl, -, n, -, rfl⟩ :=
      Given.giveValue_eq_ok h <;> simp_all
  flag := by
    intro g o' g' h
    obtain ⟨rfl, -, rfl⟩ | ⟨rfl, -, rfl⟩ | ⟨rfl, -, rfl⟩ := Given.giveFlag_eq_ok h <;> simp
  number := by
    intro g text g' h
    obtain ⟨n, rfl⟩ := Given.giveNumber_eq_ok h
    rfl

/-- The step limit is the number behind its option. -/
theorem keeps_maxSteps : Keeps .maxSteps wordNumber? Given.maxSteps where
  value := by
    intro g o' text g' h
    obtain ⟨rfl, -, rfl⟩ | ⟨rfl, -, rfl⟩ | ⟨rfl, -, x, -, rfl⟩ | ⟨rfl, hnew, n, hn, rfl⟩ :=
      Given.giveValue_eq_ok h <;> simp_all
  flag := by
    intro g o' g' h
    obtain ⟨rfl, -, rfl⟩ | ⟨rfl, -, rfl⟩ | ⟨rfl, -, rfl⟩ := Given.giveFlag_eq_ok h <;> simp
  number := by
    intro g text g' h
    obtain ⟨n, rfl⟩ := Given.giveNumber_eq_ok h
    rfl

/-- Whether a flag has been given, as a value that is there or not. -/
def flagValue : Bool → Option Unit
  | true => some ()
  | false => none

/-- A flag has been given where it stands. -/
theorem keeps_flag {o : CommandOption}
    (ho : o = .static ∨ o = .index ∨ o = .noOscillationCheck) :
    Keeps o (fun _ => some ()) (fun g => flagValue (g.has o)) where
  value := by
    intro g o' text g' h
    obtain ⟨rfl, -, rfl⟩ | ⟨rfl, -, rfl⟩ | ⟨rfl, -, x, -, rfl⟩ | ⟨rfl, -, n, -, rfl⟩ :=
      Given.giveValue_eq_ok h <;> obtain rfl | rfl | rfl := ho <;> simp [Given.has]
  flag := by
    intro g o' g' h
    obtain ⟨rfl, hnew, rfl⟩ | ⟨rfl, hnew, rfl⟩ | ⟨rfl, hnew, rfl⟩ :=
      Given.giveFlag_eq_ok h <;> obtain rfl | rfl | rfl := ho <;>
        simp [Given.has, flagValue, hnew]
  number := by
    intro g text g' h
    obtain ⟨n, rfl⟩ := Given.giveNumber_eq_ok h
    cases o <;> rfl

/-! ## A whole command line -/

/-- The word of a command gives nothing to an option. -/
lemma CommandOption.textsIn_of_command (o : CommandOption) {text : String} {level : Level}
    (h : Level.ofCommand? text = some level) :
    o.textsIn text = [] ∧ o.awaitedAfter text = false := by
  unfold Level.ofCommand? at h
  split at h
  · exact ⟨rfl, rfl⟩
  · exact ⟨rfl, rfl⟩
  · cases h

namespace Invocation

variable {fallback : Option String} {args : List String} {inv : Invocation} {q : CodesRequest}

/-- A request for a family holds what has been given behind its command. -/
lemma ofCommand_eq_ok {r : Reading} {level : Level}
    (h : ofCommand r level args fallback = .ok inv) (hcodes : inv.command = .codes q) :
    ∃ read settled, (Reading.start level).arguments args = .ok read ∧ read.settle = .ok settled ∧
      stepLimit settled.given fallback = .ok q.maxSteps ∧ q.format = settled.given.format ∧
      q.static = settled.given.static ∧ q.index = settled.given.index ∧
      q.noOscillationCheck = settled.given.noOscillationCheck := by
  obtain ⟨read, hread, h⟩ := bind_eq_ok.mp h
  obtain ⟨settled, hsettled, h⟩ := bind_eq_ok.mp h
  obtain ⟨command, hcommand, h⟩ := bind_eq_ok.mp h
  obtain ⟨outer, -, h⟩ := bind_eq_ok.mp h
  obtain rfl := Except.ok.inj h
  refine ⟨read, settled, hread, hsettled, ?_⟩
  have hcommand := mapError_eq_ok.mp hcommand
  subst hcodes
  unfold commandOf at hcommand
  split at hcommand
  · split at hcommand
    · cases hcommand
    · next hlimit _ =>
      cases hcommand
      exact ⟨hlimit, rfl, rfl, rfl, rfl⟩
    · cases hcommand
  · cases hcommand
  · cases hcommand
  · cases hcommand

/-- What stands before a command gives nothing to an option that is known behind it only. -/
lemma readOuter_eq_ok {r : Reading} (hlevel : r.level = .outer)
    (hread : readOuter fallback r args = .ok inv) :
    ∃ r' level rest, ofCommand r' level rest fallback = .ok inv ∧
      ∀ o ∉ Level.outer.options, o.valuesIn args = o.valuesIn rest := by
  induction args generalizing r with
  | nil =>
    obtain ⟨settled, -, hend⟩ := bind_eq_ok.mp hread
    cases hend
  | cons text args ih =>
    by_cases hstop : text = "--"
    · subst hstop
      cases hread
    · have hvalues : ∀ o : CommandOption, o.valuesIn (text :: args) = o.textsIn text ++
          (if o.awaitedAfter text then args.head?.toList else []) ++ o.valuesIn args :=
        fun o => o.valuesIn_cons hstop args
      rw [readOuter] at hread
      · split at hread
        · cases hread
        · next level _ _ hcommand =>
          refine ⟨r, level, args, hread, fun o _ => ?_⟩
          obtain ⟨htexts, hawaited⟩ := o.textsIn_of_command hcommand
          simp [hvalues, htexts, hawaited]
        · cases hargument : r.argument text with
          | error e =>
            rw [hargument] at hread
            cases hread
          | ok next =>
            rw [hargument] at hread
            have hnext : next.level = .outer := (keeps_format.argument hargument).level.trans hlevel
            obtain ⟨r', level, rest, hcommand, hrest⟩ := ih hnext hread
            refine ⟨r', level, rest, hcommand, fun o ho => ?_⟩
            obtain ⟨htexts, hawaited⟩ := Reading.textsIn_of_unknown hargument (by rwa [hlevel])
            simp [hvalues, htexts, hawaited, hrest o ho]
      · exact hstop

/-- A step limit comes from the option, or else from the environment variable. -/
lemma maxSteps_eq_of_stepLimit {given : Given} {maxSteps : Option ℕ}
    (h : stepLimit given fallback = .ok maxSteps) :
    maxSteps = given.maxSteps.or (fallback.bind wordNumber?) := by
  unfold stepLimit at h
  split at h
  · next n hgiven =>
    rw [hgiven, ← Except.ok.inj h]
    rfl
  · next hgiven =>
    rw [hgiven, ← Except.ok.inj h]
    rfl
  · next text hgiven =>
    split at h
    · next n hn =>
      rw [hgiven, ← Except.ok.inj h]
      simp [hn]
    · cases h

/-- Of an option that is known behind a command only, a request holds what the arguments give. -/
lemma given_of_parse (h : parse args fallback = .ok inv) (hcodes : inv.command = .codes q) :
    ∃ given : Given, stepLimit given fallback = .ok q.maxSteps ∧ q.format = given.format ∧
      q.static = given.static ∧ q.index = given.index ∧
      q.noOscillationCheck = given.noOscillationCheck ∧
      ∀ {β : Type} {o : CommandOption} {read : String → Option β} {get : Given → Option β},
        Keeps o read get → get .nothing = none → o ∉ Level.outer.options →
        (get given).toList.map some = (o.valuesIn args).map read := by
  obtain ⟨r', level, rest, hcommand, hvalues⟩ := readOuter_eq_ok rfl h
  obtain ⟨read, settled, hread, hsettled, hlimit, hformat, hstatic, hindex, hcheck⟩ :=
    ofCommand_eq_ok hcommand hcodes
  refine ⟨settled.given, hlimit, hformat, hstatic, hindex, hcheck, ?_⟩
  intro β o parse get hkeeps hnothing hunknown
  obtain ⟨hsaid, hpending, -, hend⟩ := hkeeps.settle hsettled
  have hstart : (Reading.start level).awaits = none := rfl
  have hall := hkeeps.arguments hread hend
  rw [← hsaid, hstart] at hall
  rw [hvalues o hunknown]
  simpa [Keeps.said, hpending, Reading.start, hnothing] using hall

/-- What a request for a family asks for. The environment variable counts where the arguments
give no step limit. -/
theorem request_of_parse (h : parse args fallback = .ok inv) (hcodes : inv.command = .codes q) :
    q.format = CommandOption.format.valueIn? OutputFormat.ofWord? args ∧
    q.maxSteps = (CommandOption.maxSteps.valueIn? wordNumber? args).or
      (fallback.bind wordNumber?) ∧
    q.static = CommandOption.static.standsIn args ∧
    q.index = CommandOption.index.standsIn args ∧
    q.noOscillationCheck = CommandOption.noOscillationCheck.standsIn args := by
  obtain ⟨given, hlimit, hformat, hstatic, hindex, hcheck, hkept⟩ := given_of_parse h hcodes
  have hflag : ∀ o : CommandOption, o = .static ∨ o = .index ∨ o = .noOscillationCheck →
      given.has o = o.standsIn args := by
    intro o ho
    have hvalues : (flagValue (given.has o)).toList.map some =
        (o.valuesIn args).map fun _ => some () := by
      apply hkept (keeps_flag ho) <;> obtain rfl | rfl | rfl := ho <;> decide
    have hstands : o.valuesIn args = [] ↔ o.standsIn args = false := by
      apply CommandOption.valuesIn_eq_nil_iff <;> obtain rfl | rfl | rfl := ho <;> rfl
    cases hhas : given.has o with
    | false =>
      rw [hhas] at hvalues
      exact (hstands.mp (by simpa [flagValue] using hvalues.symm)).symm
    | true =>
      rw [hhas] at hvalues
      have hne : o.valuesIn args ≠ [] := by
        intro hnil
        rw [hnil] at hvalues
        cases hvalues
      simpa using (mt hstands.mpr hne)
  refine ⟨?_, ?_, ?_, ?_, ?_⟩
  · rw [hformat]
    exact CommandOption.eq_valueIn? (hkept keeps_format rfl (by decide))
  · rw [← CommandOption.eq_valueIn? (hkept keeps_maxSteps rfl (by decide))]
    exact maxSteps_eq_of_stepLimit hlimit
  · rw [hstatic]
    exact hflag .static (.inl rfl)
  · rw [hindex]
    exact hflag .index (.inr (.inl rfl))
  · rw [hcheck]
    exact hflag .noOscillationCheck (.inr (.inr rfl))

end Invocation

end FlatXor
