import FlatXor.Program
import FlatXor.Proofs.JsonLines
import FlatXor.Proofs.OptionReading
import FlatXor.Proofs.SettingsSources
import FlatXor.Proofs.Stopping

/-!
# A run that writes a family

A run asks for the output and the limits that its arguments, its environment and its settings
file ask for, in this order. It writes the whole text of the family of the search under these
limits, or nothing: where the settings do not load, where the parameters are refused, and where
the search does not converge.
-/
namespace FlatXor

/-! ## What is asked for -/

/-- The output that the arguments and the settings file ask for. -/
def wantedOutput (args : List String) (file : FileSettings) : OutputSettings where
  format := ((CommandOption.format.valueIn? OutputFormat.ofWord? args).or file.format).getD .c
  declaration :=
    if CommandOption.static.standsIn args || file.declaration == some .static then .static
    else .plain
  index := CommandOption.index.standsIn args || file.index == some true

/-- The step limit that the arguments, the environment variable and the settings file ask for.
No limit is asked for by 0. -/
def wantedMaxSteps (args : List String) (environment : Option String) (file : FileSettings) : ℕ :=
  (((CommandOption.maxSteps.valueIn? wordNumber? args).or (environment.bind wordNumber?)).or
    file.maxSteps).getD 1000000

/-- The limits that the arguments, the environment variable and the settings file ask for. -/
def wantedLimits (args : List String) (environment : Option String) (file : FileSettings) :
    SearchLimits where
  maxSteps :=
    if wantedMaxSteps args environment file = 0 then none
    else some (wantedMaxSteps args environment file)
  detectOscillation :=
    !(CommandOption.noOscillationCheck.standsIn args || file.detectOscillation == some false)

section

variable {args : List String} {environment : Option String} {inv : Invocation} {r : CodesRequest}

lemma override_output (h : Invocation.parse args environment = .ok inv)
    (hcodes : inv.command = .codes r) (file : FileSettings) :
    file.output.override r = wantedOutput args file := by
  obtain ⟨hformat, -, hstatic, hindex, -⟩ := Invocation.request_of_parse h hcodes
  rw [OutputSettings.override, wantedOutput, hformat, hstatic, hindex, OutputSettings.mk.injEq]
  refine ⟨?_, ?_, ?_⟩
  · cases CommandOption.format.valueIn? OutputFormat.ofWord? args <;> rfl
  · rw [FileSettings.output]
    cases CommandOption.static.standsIn args <;>
      obtain _ | _ | _ := file.declaration <;> rfl
  · rw [FileSettings.output]
    cases CommandOption.index.standsIn args <;> obtain _ | _ | _ := file.index <;> rfl

lemma override_limits (h : Invocation.parse args environment = .ok inv)
    (hcodes : inv.command = .codes r) (file : FileSettings) :
    (file.search.override r).limits = wantedLimits args environment file := by
  obtain ⟨-, hmax, -, -, hcheck⟩ := Invocation.request_of_parse h hcodes
  have hsteps : r.maxSteps.getD file.search.maxSteps = wantedMaxSteps args environment file := by
    rw [wantedMaxSteps, ← hmax]
    cases r.maxSteps <;> rfl
  have hdetect : (!r.noOscillationCheck && file.search.detectOscillation) =
      !(CommandOption.noOscillationCheck.standsIn args ||
        file.detectOscillation == some false) := by
    rw [hcheck, FileSettings.search]
    cases CommandOption.noOscillationCheck.standsIn args <;>
      obtain _ | _ | _ := file.detectOscillation <;> rfl
  rw [SearchSettings.limits, SearchSettings.override, wantedLimits]
  simp only [hsteps, hdetect]

end

/-! ## Searches that converge within limits -/

namespace Search

/-- The search of all candidates converges within the limits. -/
def ConvergesWithin (p : CodeParams) (limits : SearchLimits) : Prop :=
  ∃ T, ((ofParams p limits.detectOscillation).after T).isConverged = true ∧
    ∀ limit, limits.maxSteps = some limit → T ≤ limit

/-- The search of all candidates never converges, and nothing stops it. -/
def RunsForever (p : CodeParams) (limits : SearchLimits) : Prop :=
  limits.maxSteps = none ∧ limits.detectOscillation = false ∧
    ∀ k, ((ofParams p limits.detectOscillation).after k).isConverged = false

lemma accepts_candidates (p : CodeParams) : p.Accepts p.candidates :=
  fun _ hc => CodeParams.admits_of_mem_candidates hc

/-- A search that has converged has converged at a first step. -/
lemma exists_first_converged {p : CodeParams} {pool : Pool} {T : ℕ}
    (h : (SearchState.trail p pool T).pool.length ≤ p.parities) :
    ∃ T' ≤ T, (SearchState.trail p pool T').pool.length ≤ p.parities ∧
      ∀ i < T', p.parities < (SearchState.trail p pool i).pool.length := by
  have hex : ∃ T, (SearchState.trail p pool T).pool.length ≤ p.parities := ⟨T, h⟩
  exact ⟨Nat.find hex, Nat.find_min' hex h, Nat.find_spec hex,
    fun i hi => Nat.lt_of_not_le (Nat.find_min hex hi)⟩

/-- The states of a search that never converges repeat, so a detector reports at some time. -/
lemma exists_exponent_of_open {p : CodeParams} {pool : Pool} (hpool : p.Accepts pool)
    (hopen : ∀ k, p.parities < (SearchState.trail p pool k).pool.length) :
    ∃ tail period e, Detector.Lasso (SearchState.trail p pool) tail period ∧
      IsLeast {e | max (tail + 1) period ≤ 2 ^ e} e := by
  obtain ⟨tail, period, hlasso⟩ := exists_lasso_of_open hpool hopen
  have hex : ∃ e, max (tail + 1) period ≤ 2 ^ e := ⟨_, Nat.lt_two_pow_self.le⟩
  exact ⟨tail, period, Nat.find hex, hlasso, Nat.find_spec hex, fun _ h => Nat.find_min' hex h⟩

end Search

namespace CodeFamily

open Search (ConvergesWithin RunsForever)

variable {p : CodeParams} {limits : SearchLimits}

/-- There is a family just if the search converges within the limits. -/
theorem exists_generate_eq_ok_iff :
    (∃ f, generate p limits = some (.ok f)) ↔ ConvergesWithin p limits := by
  have hpool := Search.accepts_candidates p
  constructor
  · rintro ⟨f, hf⟩
    obtain ⟨result, hrun, hok⟩ := Option.map_eq_some_iff.mp hf
    obtain ⟨o, rfl, -⟩ := map_eq_ok.mp hok
    obtain ⟨k, -, hconv, -⟩ := Search.exists_converged_of_run hrun
    obtain ⟨T, -, hT, hopen⟩ :=
      Search.exists_first_converged (Search.start_isConverged_after.mp hconv)
    refine ⟨T, Search.start_isConverged_after.mpr hT, fun limit hlimit => ?_⟩
    by_contra hlt
    have hcut := (Search.run_of_converges hpool limits.detectOscillation hT hopen).2 limit hlimit
      (Nat.lt_of_not_le hlt)
    rw [Search.ofParams, hcut] at hrun
    cases hrun
  · rintro ⟨k, hconv, hlimit⟩
    obtain ⟨T, hle, hT, hopen⟩ :=
      Search.exists_first_converged (Search.start_isConverged_after.mp hconv)
    have hrun := (@Search.run_of_converges p p.candidates limits.maxSteps hpool
      limits.detectOscillation T hT hopen).1 fun limit h => hle.trans (hlimit limit h)
    rw [generate, Search.ofParams, hrun]
    exact ⟨_, rfl⟩

/-- There is no answer just if the search never converges and nothing stops it. -/
theorem generate_eq_none_iff : generate p limits = none ↔ RunsForever p limits := by
  have hpool := Search.accepts_candidates p
  rw [generate, Option.map_eq_none_iff, Search.ofParams]
  constructor
  · intro hrun
    have hopen : ∀ k, p.parities < (SearchState.trail p p.candidates k).pool.length := by
      intro k
      by_contra hconv
      obtain ⟨T, -, hT, hopen⟩ := Search.exists_first_converged (Nat.le_of_not_lt hconv)
      obtain ⟨hok, hcut⟩ := @Search.run_of_converges p p.candidates limits.maxSteps hpool
        limits.detectOscillation T hT hopen
      by_cases hlimit : ∀ limit, limits.maxSteps = some limit → T ≤ limit
      · rw [hok hlimit] at hrun
        cases hrun
      · push Not at hlimit
        obtain ⟨limit, hmax, hlt⟩ := hlimit
        rw [hcut limit hmax hlt] at hrun
        cases hrun
    obtain ⟨tail, period, e, hlasso, he⟩ := Search.exists_exponent_of_open hpool hopen
    obtain ⟨hreport, hcut, -⟩ := @Search.run_of_lasso p p.candidates limits.maxSteps hpool
      limits.detectOscillation tail period e hopen hlasso he
    -- a limit or a detector would have stopped the run
    have hmax : limits.maxSteps = none := by
      by_contra hne
      obtain ⟨limit, hmax⟩ := Option.ne_none_iff_exists'.mp hne
      by_cases hcause : limits.detectOscillation = false ∨ limit < 2 ^ e - 1 + period
      · rw [hcut limit hmax hcause] at hrun
        cases hrun
      · obtain ⟨hdetect, hle⟩ := not_or.mp hcause
        rw [hreport (by simpa using hdetect) fun limit' hmax' => ?_] at hrun
        · cases hrun
        · rw [hmax] at hmax'
          cases hmax'
          exact Nat.le_of_not_lt hle
    have hdetect : limits.detectOscillation = false := by
      rw [← Bool.not_eq_true]
      intro hdetect
      rw [hreport hdetect (by simp [hmax])] at hrun
      cases hrun
    exact ⟨hmax, hdetect, fun k => Search.start_open_after.mpr (hopen k)⟩
  · rintro ⟨hmax, hdetect, hnever⟩
    have hopen : ∀ k, p.parities < (SearchState.trail p p.candidates k).pool.length :=
      fun k => Search.start_open_after.mp (hnever k)
    obtain ⟨tail, period, e, hlasso, he⟩ := Search.exists_exponent_of_open hpool hopen
    exact (Search.run_of_lasso hpool limits.detectOscillation hopen hlasso he).2.2 hdetect hmax

end CodeFamily

/-! ## The run -/

/-- The settings load, and this is what the settings file says. -/
structure FileSettings.Loads (contentAt : String → FileContent) (path : Option String)
    (file : FileSettings) : Prop where
  settings : ∃ settings, Settings.load contentAt path = .ok settings
  said : FileSettings.load? contentAt path = some file

lemma FileSettings.Loads.unique {contentAt : String → FileContent} {path : Option String}
    {file file' : FileSettings} (h : Loads contentAt path file) (h' : Loads contentAt path file') :
    file = file' :=
  Option.some.inj (h.said.symm.trans h'.said)

namespace Program

/-- What a run comes to that is asked for a family. -/
inductive Outcome (args : List String) (s : Surroundings) (path : Option String)
    (r : CodesRequest) : Option RunResult → Prop
  | notLoaded {e : SettingsError} {report : String}
      (hload : Settings.load s.contentAt path = .error e) :
      Outcome args s path r (some ⟨1, "", report⟩)
  | refused {e : ParamsError} {report : String}
      (hparams : CodeParams.ofCounts r.parities r.arity = .error e) :
      Outcome args s path r (some ⟨1, "", report⟩)
  | unconverged {file : FileSettings} {p : CodeParams} {e : SearchError} {report : String}
      (hloads : FileSettings.Loads s.contentAt path file)
      (hparams : CodeParams.ofCounts r.parities r.arity = .ok p)
      (hfamily : CodeFamily.generate p (wantedLimits args s.stepLimit file) = some (.error e)) :
      Outcome args s path r (some ⟨1, "", report⟩)
  | endless {file : FileSettings} {p : CodeParams}
      (hloads : FileSettings.Loads s.contentAt path file)
      (hparams : CodeParams.ofCounts r.parities r.arity = .ok p)
      (hfamily : CodeFamily.generate p (wantedLimits args s.stepLimit file) = none) :
      Outcome args s path r none
  | written {file : FileSettings} {p : CodeParams} {f : CodeFamily}
      (hloads : FileSettings.Loads s.contentAt path file)
      (hparams : CodeParams.ofCounts r.parities r.arity = .ok p)
      (hfamily : CodeFamily.generate p (wantedLimits args s.stepLimit file) = some (.ok f)) :
      Outcome args s path r (some (succeed (f.render (wantedOutput args file))))

variable {args : List String} {s : Surroundings} {inv : Invocation} {r : CodesRequest}

lemma outcome_of_parse (hparse : Invocation.parse args s.stepLimit = .ok inv)
    (hcodes : inv.command = .codes r) : Outcome args s inv.config r (run args s) := by
  rw [run, hparse]
  cases hload : Settings.load s.contentAt inv.config with
  | error e =>
    simp only [hload]
    exact .notLoaded hload
  | ok settings =>
    simp only [hload, hcodes, perform]
    obtain ⟨file, hsaid, hsearch, houtput⟩ := FileSettings.of_load hload
    have hloads : FileSettings.Loads s.contentAt inv.config file := ⟨⟨settings, hload⟩, hsaid⟩
    rw [codes, hsearch, houtput, override_output hparse hcodes, override_limits hparse hcodes]
    cases hparams : CodeParams.ofCounts r.parities r.arity with
    | error e => exact .refused hparams
    | ok p =>
      cases hfamily : CodeFamily.generate p (wantedLimits args s.stepLimit file) with
      | none =>
        simp only [hfamily]
        exact .endless hloads hparams hfamily
      | some answer =>
        cases answer with
        | error e =>
          simp only [hfamily]
          exact .unconverged hloads hparams hfamily
        | ok f =>
          simp only [hfamily]
          exact .written hloads hparams hfamily

namespace Outcome

variable {path : Option String} {answer : Option RunResult} {result : RunResult}

/-- A run that returns has written the text of the family, or nothing. -/
lemma written_or_empty (h : Outcome args s path r (some result)) :
    (result.exitCode = 0 ∧ ∃ file p f, FileSettings.Loads s.contentAt path file ∧
      CodeParams.ofCounts r.parities r.arity = .ok p ∧
      CodeFamily.generate p (wantedLimits args s.stepLimit file) = some (.ok f) ∧
      result.output = f.render (wantedOutput args file)) ∨
    (result.exitCode = 1 ∧ result.output = "") := by
  cases h with
  | notLoaded | refused | unconverged => exact .inr ⟨rfl, rfl⟩
  | written hloads hparams hfamily =>
    exact .inl ⟨rfl, _, _, _, hloads, hparams, hfamily, rfl⟩

/-- With settings that load and parameters that are not refused a run follows the search. -/
lemma follows_search (h : Outcome args s path r answer) {file : FileSettings} {p : CodeParams}
    (hloads : FileSettings.Loads s.contentAt path file)
    (hparams : CodeParams.ofCounts r.parities r.arity = .ok p) :
    ((∃ result, answer = some result ∧ result.exitCode = 0) ↔
      ∃ f, CodeFamily.generate p (wantedLimits args s.stepLimit file) = some (.ok f)) ∧
    (answer = none ↔ CodeFamily.generate p (wantedLimits args s.stepLimit file) = none) := by
  cases h with
  | notLoaded hload =>
    obtain ⟨settings, hsettings⟩ := hloads.settings
    rw [hload] at hsettings
    cases hsettings
  | refused hrefused =>
    rw [hparams] at hrefused
    cases hrefused
  | unconverged hloads' hparams' hfamily =>
    obtain rfl := hloads.unique hloads'
    obtain rfl := Except.ok.inj (hparams.symm.trans hparams')
    simp [hfamily]
  | endless hloads' hparams' hfamily =>
    obtain rfl := hloads.unique hloads'
    obtain rfl := Except.ok.inj (hparams.symm.trans hparams')
    simp [hfamily]
  | written hloads' hparams' hfamily =>
    obtain rfl := hloads.unique hloads'
    obtain rfl := Except.ok.inj (hparams.symm.trans hparams')
    simp [hfamily, succeed]

end Outcome

/-- A run that is asked for a family writes the whole text of the family of the library, or it
writes nothing and its exit code is 1. The format, the kind of declaration, the index and the
limits are what the arguments, the environment variable and the settings file ask for, in this
order. The exit code is 0 just if the settings load, the parameters are not refused and the
search converges within the limits. A run does not return just if there is no limit and no
detector for a search that never converges. -/
theorem family_or_nothing (hparse : Invocation.parse args s.stepLimit = .ok inv)
    (hcodes : inv.command = .codes r) :
    (∀ result, run args s = some result →
      (result.exitCode = 0 ∧ ∃ file p f, FileSettings.Loads s.contentAt inv.config file ∧
        CodeParams.ofCounts r.parities r.arity = .ok p ∧
        CodeFamily.generate p (wantedLimits args s.stepLimit file) = some (.ok f) ∧
        result.output = f.render (wantedOutput args file) ∧
        ∀ room reason, result.output.length ≤ room → ∃ sink,
          f.write (wantedOutput args file) (.ofRoom room reason) = (.ok (), sink) ∧
            sink.contents = result.output) ∨
      (result.exitCode = 1 ∧ result.output = "")) ∧
    ((∃ result, run args s = some result ∧ result.exitCode = 0) ↔
      ∃ file p, FileSettings.Loads s.contentAt inv.config file ∧
        CodeParams.ofCounts r.parities r.arity = .ok p ∧
        Search.ConvergesWithin p (wantedLimits args s.stepLimit file)) ∧
    (run args s = none ↔
      ∃ file p, FileSettings.Loads s.contentAt inv.config file ∧
        CodeParams.ofCounts r.parities r.arity = .ok p ∧
        Search.RunsForever p (wantedLimits args s.stepLimit file)) := by
  have houtcome := outcome_of_parse hparse hcodes
  refine ⟨fun result hrun => ?_, ⟨?_, ?_⟩, ?_, ?_⟩
  · rw [hrun] at houtcome
    obtain ⟨hcode, file, p, f, hloads, hparams, hfamily, houtput⟩ | hempty :=
      houtcome.written_or_empty
    · refine .inl ⟨hcode, file, p, f, hloads, hparams, hfamily, houtput, ?_⟩
      rw [houtput]
      exact fun room reason => f.exists_write_eq_ok _ reason
    · exact .inr hempty
  · rintro ⟨result, hrun, hcode⟩
    rw [hrun] at houtcome
    obtain ⟨-, file, p, f, hloads, hparams, hfamily, -⟩ | ⟨hone, -⟩ := houtcome.written_or_empty
    · exact ⟨file, p, hloads, hparams, CodeFamily.exists_generate_eq_ok_iff.mp ⟨f, hfamily⟩⟩
    · rw [hcode] at hone
      cases hone
  · rintro ⟨file, p, hloads, hparams, hconverges⟩
    exact (houtcome.follows_search hloads hparams).1.mpr
      (CodeFamily.exists_generate_eq_ok_iff.mpr hconverges)
  · intro hnone
    rw [hnone] at houtcome
    cases houtcome with
    | endless hloads hparams hfamily =>
      exact ⟨_, _, hloads, hparams, CodeFamily.generate_eq_none_iff.mp hfamily⟩
  · rintro ⟨file, p, hloads, hparams, hforever⟩
    exact (houtcome.follows_search hloads hparams).2.mpr
      (CodeFamily.generate_eq_none_iff.mpr hforever)

/-- Arguments that ask for static declarations and allow 13 steps. -/
def thirteenSteps : List String :=
  ["-c", "goldilocks.toml", "codes", "--static", "--max-steps", "13", "6", "2"]

/-- The environment allows 12 steps. The settings file allows 3 and asks for the index. -/
def fewerSteps : Surroundings :=
  ⟨some "12", fun _ => .bytes "[search]\nmax_steps = 3\n[output]\nindex = true\n".toUTF8⟩

/-- The 13 steps of the arguments count, and they are just enough. The declarations are those of
the arguments, and the index is that of the settings file. -/
theorem thirteen_steps_suffice :
    ∃ result, run thirteenSteps fewerSteps = some result ∧ result.exitCode = 0 ∧
      ∃ f, CodeFamily.generate Search.sixTwo ⟨some 13, true⟩ = some (.ok f) ∧
        result.output = f.render ⟨.c, .static, true⟩ := by
  have hparse : Invocation.parse thirteenSteps fewerSteps.stepLimit =
      .ok ⟨some "goldilocks.toml", none, .codes ⟨6, 2, none, true, false, some 13, false⟩⟩ := by
    decide +kernel
  obtain ⟨file, hfile⟩ : ∃ file : FileSettings, file = ⟨some 3, none, none, none, some true⟩ :=
    ⟨_, rfl⟩
  have hloads : FileSettings.Loads fewerSteps.contentAt (some "goldilocks.toml") file := by
    refine ⟨⟨⟨file.search, file.output, .default⟩, ?_⟩, ?_⟩
    · rw [hfile]
      decide +kernel
    · rw [hfile]
      decide +kernel
  have hlimits : wantedLimits thirteenSteps fewerSteps.stepLimit file = ⟨some 13, true⟩ := by
    rw [hfile]
    decide +kernel
  have houtput : wantedOutput thirteenSteps file = ⟨.c, .static, true⟩ := by
    rw [hfile]
    decide +kernel
  have hconverges : Search.ConvergesWithin Search.sixTwo ⟨some 13, true⟩ := by
    refine ⟨13, by decide +kernel, fun limit hlimit => ?_⟩
    cases hlimit
    exact le_rfl
  obtain ⟨hresult, hzero, -⟩ := family_or_nothing hparse rfl
  obtain ⟨result, hrun, hcode⟩ :=
    hzero.mpr ⟨file, Search.sixTwo, hloads, rfl, by rwa [hlimits]⟩
  obtain ⟨-, file', p, f, hloads', hparams, hfamily, houtput', -⟩ | ⟨hone, -⟩ :=
    hresult result hrun
  · obtain rfl := hloads.unique hloads'
    obtain rfl : Search.sixTwo = p := Except.ok.inj hparams
    rw [hlimits] at hfamily
    rw [houtput] at houtput'
    exact ⟨result, hrun, hcode, f, hfamily, houtput'⟩
  · rw [hcode] at hone
    cases hone

end Program

end FlatXor
