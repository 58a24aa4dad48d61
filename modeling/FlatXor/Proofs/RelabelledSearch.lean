import FlatXor.Proofs.Backtracking
import FlatXor.Proofs.Relabelling

/-!
# Searches under new numbers of the parities

A search looks at its parities only through inclusion, size and set algebra, and at its
candidates in the order in which they stand. So under new numbers of the parities each step
does the same with the renamed candidate. The detector compares whole states, and two of
them are equal under the new numbers just when they are under the old ones, so it reports
the same. What a run answers is what it answered before, renamed.
-/
namespace FlatXor

namespace Move

/-- The same move with the renamed candidate. -/
def relabel (σ : Equiv.Perm ParityIndex) : Move → Move
  | cover c => cover (c.relabel σ)
  | rollover c => rollover (c.relabel σ)
  | backtrack c => backtrack (c.relabel σ)

end Move

namespace SearchState

variable {p : CodeParams} {σ : Equiv.Perm ParityIndex} {s s' : SearchState} {move : Move}

/-- The state with each set renamed. -/
def relabel (σ : Equiv.Perm ParityIndex) (s : SearchState) : SearchState :=
  ⟨s.needed.relabel σ, s.pool.map (ParitySet.relabel σ), s.used.map (ParitySet.relabel σ)⟩

@[simp] lemma needed_relabel : (s.relabel σ).needed = s.needed.relabel σ := rfl

@[simp] lemma pool_relabel : (s.relabel σ).pool = s.pool.map (ParitySet.relabel σ) := rfl

@[simp] lemma used_relabel : (s.relabel σ).used = s.used.map (ParitySet.relabel σ) := rfl

theorem relabel_injective (σ : Equiv.Perm ParityIndex) : Function.Injective (relabel σ) := by
  have hsets := ParitySet.relabel_injective σ
  rintro ⟨needed, pool, used⟩ ⟨needed', pool', used'⟩ h
  simp only [relabel, mk.injEq] at h
  obtain ⟨hneeded, hpool, hused⟩ := h
  rw [hsets hneeded, hsets.list_map hpool, hsets.list_map hused]

theorem relabel_start (hσ : p.Keeps σ) (pool : Pool) :
    (start p pool).relabel σ = start p (pool.map (ParitySet.relabel σ)) := by
  simp [start, relabel, ParitySet.relabel_full hσ]

@[simp] lemma isConverged_relabel : (s.relabel σ).isConverged p = s.isConverged p := by
  simp [isConverged]

@[simp] lemma qualifies_relabel {needed c : ParitySet} :
    Qualifies p (needed.relabel σ) (c.relabel σ) ↔ Qualifies p needed c := by
  simp [Qualifies]

/-- Under the new numbers a step is the same step. -/
theorem Step.relabel (hσ : p.Keeps σ) (h : Step p s move s') :
    Step p (s.relabel σ) (move.relabel σ) (s'.relabel σ) := by
  cases h with
  | @cover c front back hweight hc hfront hpool =>
    have hpool : (s.relabel σ).pool = front.map (ParitySet.relabel σ) ++
        c.relabel σ :: back.map (ParitySet.relabel σ) := by
      simp [hpool]
    have hstep : Step p (s.relabel σ) (.cover (c.relabel σ)) _ :=
      .cover (by simpa using hweight) (by simpa using hc) (by simpa using hfront) hpool
    simpa [SearchState.relabel, Move.relabel, ParitySet.relabel_diff] using hstep
  | @rollover c front back hweight hc hfront hpool =>
    have hpool : (s.relabel σ).pool = front.map (ParitySet.relabel σ) ++
        c.relabel σ :: back.map (ParitySet.relabel σ) := by
      simp [hpool]
    have hstep : Step p (s.relabel σ) (.rollover (c.relabel σ)) _ :=
      .rollover (by simpa using hweight) (by simpa using hc) (by simpa using hfront) hpool
    simpa [SearchState.relabel, Move.relabel, ParitySet.relabel_symmDiff, ParitySet.relabel_diff,
      ParitySet.relabel_full hσ] using hstep
  | @backtrack c used hstall hused =>
    have hused : (s.relabel σ).used = c.relabel σ :: used.map (ParitySet.relabel σ) := by
      simp [hused]
    have hstep : Step p (s.relabel σ) (.backtrack (c.relabel σ)) _ :=
      .backtrack (by simpa using hstall) hused
    simpa [SearchState.relabel, Move.relabel, ParitySet.relabel_union] using hstep

/-- Where there is no step under the old numbers there is none under the new ones. -/
lemma advance?_relabel_of_none (h : s.advance? p = none) : (s.relabel σ).advance? p = none := by
  obtain ⟨hstall, hused⟩ := advance?_eq_none_iff.mp h
  rw [advance?_eq_none_iff]
  simpa [hused] using hstall

theorem advance?_relabel (hσ : p.Keeps σ) :
    (s.relabel σ).advance? p =
      (s.advance? p).map fun r => (r.1.relabel σ, r.2.relabel σ) := by
  cases h : s.advance? p with
  | none => exact advance?_relabel_of_none h
  | some r => exact advance?_of_step ((step_of_advance? h).relabel hσ)

theorem move?_relabel (hσ : p.Keeps σ) :
    (s.relabel σ).move? p = (s.move? p).map (Move.relabel σ) := by
  unfold move?
  rw [isConverged_relabel, advance?_relabel hσ]
  split <;> simp [Function.comp_def]

end SearchState

namespace Detector

variable {α β : Type} [DecidableEq α] [DecidableEq β] {f : α → β}

/-- The detector of the states that `f` gives for those seen. -/
def map (f : α → β) (d : Detector α) : Detector β := ⟨f d.snapshot, d.power, d.distance⟩

/-- A function that tells states apart changes no report. -/
theorem observe_map (hf : Function.Injective f) (d : Detector α) (state : α) :
    (d.map f).observe (f state) = ((d.observe state).1, (d.observe state).2.map f) := by
  by_cases hsame : state = d.snapshot
  · simp [observe, map, hsame]
  · have hdiffer : ¬ f state = f d.snapshot := fun h => hsame (hf h)
    by_cases hpower : d.distance + 1 = d.power
    · simp [observe, map, hsame, hdiffer, hpower]
    · simp [observe, map, hsame, hdiffer, hpower]

end Detector

/-- The same outcome with the renamed candidate. -/
def StepOutcome.relabel (σ : Equiv.Perm ParityIndex) : StepOutcome → StepOutcome
  | .moved move => .moved (move.relabel σ)
  | .converged => .converged

/-- The result with each candidate renamed. -/
def SearchOutcome.relabel (σ : Equiv.Perm ParityIndex) (o : SearchOutcome) : SearchOutcome :=
  ⟨o.params, o.pool.map (ParitySet.relabel σ), o.used.map (ParitySet.relabel σ), o.statistics⟩

namespace Search

variable {p : CodeParams} {pool : Pool} {detect : Bool} {σ : Equiv.Perm ParityIndex} {s : Search}

/-- The search with each set renamed, also in what the detector has seen. -/
def relabel (σ : Equiv.Perm ParityIndex) (s : Search) : Search :=
  ⟨s.params, s.state.relabel σ, s.statistics, s.detector.map (Detector.map (SearchState.relabel σ))⟩

lemma relabel_start (hσ : p.Keeps σ) (pool : Pool) (detect : Bool) :
    (start p pool detect).relabel σ = start p (pool.map (ParitySet.relabel σ)) detect := by
  unfold start relabel
  rw [SearchState.relabel_start hσ]
  cases detect with
  | false => rfl
  | true => simp [Detector.start, Detector.map, SearchState.relabel_start hσ]

@[simp] lemma isConverged_relabel : (s.relabel σ).isConverged = s.isConverged :=
  SearchState.isConverged_relabel

@[simp] lemma total_relabel : (s.relabel σ).total = s.total := by
  simp [total, relabel]

@[simp] lemma report?_relabel (state : SearchState) :
    (s.relabel σ).report? (state.relabel σ) = s.report? state := by
  unfold report?
  cases hd : s.detector with
  | none => simp [relabel, hd]
  | some d => simp [relabel, hd, Detector.observe_map (SearchState.relabel_injective σ)]

/-- A call does and answers the same under the new numbers. -/
theorem step_relabel (hσ : s.params.Keeps σ) :
    (s.relabel σ).step = (s.step.1.map (StepOutcome.relabel σ), s.step.2.relabel σ) := by
  cases hconv : s.isConverged with
  | true =>
    rw [step_of_converged hconv, step_of_converged (by rwa [isConverged_relabel])]
    rfl
  | false =>
    have hconv' : (s.relabel σ).isConverged = false := by rwa [isConverged_relabel]
    cases hadvance : s.state.advance? s.params with
    | none =>
      have hadvance' : (s.relabel σ).state.advance? (s.relabel σ).params = none :=
        SearchState.advance?_relabel_of_none hadvance
      simp only [step, hconv, hconv', hadvance, hadvance']
      rfl
    | some r =>
      have hstep : SearchState.Step s.params s.state r.1 r.2 := SearchState.step_of_advance? hadvance
      have hstep' : SearchState.Step (s.relabel σ).params (s.relabel σ).state (r.1.relabel σ)
          (r.2.relabel σ) := hstep.relabel hσ
      rw [step_of_move hconv hstep, step_of_move hconv' hstep', report?_relabel]
      have hlen : (r.2.relabel σ).used.length = r.2.used.length := List.length_map _
      have hcount : ∀ t : Statistics, t.countMove (r.1.relabel σ) = t.countMove r.1 := by
        intro t
        cases r.1 <;> rfl
      have hdetector : ((s.relabel σ).detector.map fun d => (d.observe (r.2.relabel σ)).2) =
          (s.detector.map fun d => (d.observe r.2).2).map (Detector.map (SearchState.relabel σ)) := by
        simp [relabel, Function.comp_def, Detector.observe_map (SearchState.relabel_injective σ)]
      rw [hdetector, hlen, hcount]
      cases s.report? r.2 <;> rfl

theorem after_relabel (hσ : s.params.Keeps σ) (k : ℕ) :
    (s.relabel σ).after k = (s.after k).relabel σ := by
  induction k with
  | zero => rfl
  | succ k ih =>
    have hparams : (s.after k).params.Keeps σ := by rwa [(after_state s k).2]
    rw [after_succ, after_succ, ih, step_relabel hparams]

theorem runFor_relabel (hσ : s.params.Keeps σ) (maxSteps : Option ℕ) (rounds : ℕ) :
    (s.relabel σ).runFor maxSteps rounds =
      (s.runFor maxSteps rounds).map (Except.map (SearchOutcome.relabel σ)) := by
  induction rounds generalizing s with
  | zero => rfl
  | succ rounds ih =>
    have hnext : s.step.2.params.Keeps σ := by rwa [(step_state s).2]
    have hrest := ih hnext
    unfold runFor
    rw [isConverged_relabel, step_relabel hσ]
    cases s.isConverged with
    | true => rfl
    | false =>
      have hlimit : maxSteps.filter (· ≤ (s.relabel σ).statistics.steps) =
          maxSteps.filter (· ≤ s.statistics.steps) := rfl
      rw [hlimit]
      cases maxSteps.filter (· ≤ s.statistics.steps) with
      | some limit => rfl
      | none =>
        rcases hstep : s.step with ⟨_ | o, s'⟩
        · rfl
        · rw [hstep] at hrest
          exact hrest

theorem run_relabel (hσ : s.params.Keeps σ) (maxSteps : Option ℕ) :
    (s.relabel σ).run maxSteps = (s.run maxSteps).map (Except.map (SearchOutcome.relabel σ)) := by
  cases maxSteps with
  | some limit => exact runFor_relabel hσ (some limit) (limit + 1)
  | none =>
    unfold run
    rw [total_relabel]
    exact runFor_relabel hσ none _

/-- A search does not depend on how the parities are numbered. For every permutation of the
parities of the code, the pool of the renamed candidates is accepted too. Each call of its
search leaves the renamed state and the same statistics, and answers with the renamed
outcome, or with the same error. A run answers with the renamed result, or with the same
error. -/
theorem independent_of_numbering {p : CodeParams} {pool : Pool} {detect : Bool} {s : Search}
    (hs : Begins p detect pool s) (π : Equiv.Perm (Fin p.parities)) :
    (∀ c : ParitySet, ∀ i, (π i).val ∈ c.relabel (p.extend π) ↔ i.val ∈ c) ∧
    ∃ s', ofPool p (pool.map (ParitySet.relabel (p.extend π))) detect = .ok s' ∧
      (∀ k, (s'.after k).state = (s.after k).state.relabel (p.extend π) ∧
        (s'.after k).statistics = (s.after k).statistics ∧
        s'.moveAt k = (s.moveAt k).map (Move.relabel (p.extend π)) ∧
        (s'.after k).step.1 = (s.after k).step.1.map (StepOutcome.relabel (p.extend π))) ∧
      ∀ maxSteps, s'.run maxSteps =
        (s.run maxSteps).map (Except.map (SearchOutcome.relabel (p.extend π))) := by
  have hpool := hs.accepts
  have hσ := CodeParams.keeps_extend π
  refine ⟨fun c i => ParitySet.mem_relabel_extend, s.relabel (p.extend π), ?_, ?_, ?_⟩
  · rw [ofPool_eq_ok_iff, hs.eq_start, relabel_start hσ]
    refine ⟨?_, rfl⟩
    intro c hc
    obtain ⟨d, hd, rfl⟩ := List.mem_map.mp hc
    rw [ParitySet.admits_relabel hσ]
    exact hpool d hd
  · intro k
    have hparams : (s.after k).params = p := by rw [hs.eq_start, start_after_params]
    have hσ' : (s.after k).params.Keeps (p.extend π) := by rwa [hparams]
    have hσ₀ : s.params.Keeps (p.extend π) := by rwa [hs.eq_start]
    rw [moveAt, after_relabel hσ₀, step_relabel hσ']
    exact ⟨rfl, rfl, SearchState.move?_relabel hσ', rfl⟩
  · have hσ₀ : s.params.Keeps (p.extend π) := by rwa [hs.eq_start]
    exact run_relabel hσ₀

/-- With the parities 0 and 2 exchanged, the search that takes back the candidate of 0 and 1
takes back that of 2 and 1, and converges to the renamed result. -/
theorem undoneRound_renumbered :
    Begins threeTwo true undoneRound.state.pool undoneRound ∧
      ∃ s', ofPool threeTwo [⟨5⟩, ⟨5⟩, ⟨6⟩, ⟨5⟩, ⟨5⟩, ⟨5⟩] true = .ok s' ∧
        s'.moveAt 2 = some (.backtrack ⟨6⟩) ∧
        ∃ o, s'.run none = some (.ok o) ∧ o.pool = [⟨5⟩, ⟨5⟩, ⟨5⟩] ∧ o.used = [⟨6⟩, ⟨5⟩, ⟨5⟩] ∧
          o.statistics.backtracks = 1 := by
  have hs : Begins threeTwo true undoneRound.state.pool undoneRound := .ofPool rfl
  have hrelabelled : undoneRound.state.pool.map (ParitySet.relabel (threeTwo.extend Fin.revPerm)) =
      [⟨5⟩, ⟨5⟩, ⟨6⟩, ⟨5⟩, ⟨5⟩, ⟨5⟩] := by
    decide +kernel
  obtain ⟨-, s', hs', hcalls, hruns⟩ := independent_of_numbering hs Fin.revPerm
  rw [hrelabelled] at hs'
  have hmove : undoneRound.moveAt 2 = some (.backtrack ⟨3⟩) := by decide +kernel
  have hrun : undoneRound.run none = some (.ok (undoneRound.after 5).outcome) := by decide +kernel
  refine ⟨hs, s', hs', ?_, (undoneRound.after 5).outcome.relabel (threeTwo.extend Fin.revPerm),
    ?_, ?_, ?_, ?_⟩
  · rw [(hcalls 2).2.2.1, hmove]
    decide +kernel
  · rw [hruns none, hrun]
    rfl
  · decide +kernel
  · decide +kernel
  · decide +kernel

end Search

end FlatXor
