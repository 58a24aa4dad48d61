import FlatXor.Proofs.AsciiText
import FlatXor.Proofs.Backtracking
import FlatXor.Proofs.SinkRoom
import Mathlib.Algebra.Ring.Nat

/-!
# What a full sink has taken

A sink that fills up has taken the front of the text, as long as its room, and the kind of
the error tells where the first character lies that it did not take: inside a JSON object,
or anywhere else. Neither depends on how the text is cut into writes.
-/
namespace FlatXor

/-! ## Cuts -/

/-- The pieces are written in parts. A part fails as its piece does. -/
inductive CutsInto : List Piece → List Piece → Prop
  | nil : CutsInto [] []
  | cons {p : Piece} {parts pieces rest : List Piece} (htext : Piece.joined parts = p.text)
      (herror : ∀ q ∈ parts, ∀ reason, q.error reason = p.error reason)
      (hrest : CutsInto pieces rest) :
      CutsInto (p :: pieces) (parts ++ rest)

namespace CutsInto

variable {pieces parts : List Piece}

/-- Each piece can be written as one part. -/
theorem refl (pieces : List Piece) : CutsInto pieces pieces := by
  induction pieces with
  | nil => exact .nil
  | cons p pieces ih =>
    have hone : Piece.joined [p] = p.text := by simp
    exact .cons hone (fun q hq _ => by rw [List.mem_singleton.mp hq]) ih

theorem joined_eq (h : CutsInto pieces parts) : Piece.joined parts = Piece.joined pieces := by
  induction h with
  | nil => rfl
  | cons htext _ _ ih => rw [Piece.joined_append, htext, ih, Piece.joined_cons]

/-- The part with a character fails as the piece with it does. -/
theorem map_error_at? (h : CutsInto pieces parts) (reason : String) (i : ℕ) :
    (Piece.at? parts i).map (Piece.error reason) =
      (Piece.at? pieces i).map (Piece.error reason) := by
  induction h generalizing i with
  | nil => rfl
  | @cons p parts pieces rest htext herror _ ih =>
    rw [Piece.at?_append, htext, Piece.at?]
    split_ifs with hlt
    · have hsome : Piece.at? parts i ≠ none := by
        rw [Ne, Piece.at?_eq_none_iff, htext]
        omega
      obtain ⟨q, hq⟩ := Option.ne_none_iff_exists'.mp hsome
      obtain ⟨front, back, rfl, -, -⟩ := Piece.exists_split_of_at?_eq_some hq
      rw [hq, Option.map_some, Option.map_some, herror q (by simp) reason]
    · exact ih _

end CutsInto

/-- What a write with the given result has delivered of a text, by the parts in which the text
was written. Characters are bytes. A text for which there is room is taken whole. Of another
one the sink has the front. The error says whether the first character that it did not take is
inside an object. The part with that character is cut off, and no part after it is written. -/
structure Delivers (text : String) (inObject : ℕ → Prop) (parts : List Piece) (room : ℕ)
    (reason : String) (result : Except WriteError Unit × Sink) : Prop where
  ascii : IsAscii text.toList
  of_le : text.length ≤ room → result.1 = .ok () ∧ result.2.contents = text
  contents_eq : result.2.contents = String.ofList (text.toList.take room)
  error_json : room < text.length → inObject room → result.1 = .error (.json reason)
  error_io : room < text.length → ¬ inObject room → result.1 = .error (.io reason)
  taken_eq : room < text.length → ∃ front p back, parts = front ++ p :: back ∧
    (Piece.joined front).length ≤ room ∧ room < (Piece.joined front).length + p.text.length ∧
    result.2.taken = String.ofList (p.text.toList.take (room - (Piece.joined front).length)) ::
      (front.map Piece.text).reverse

/-- The parts of pieces are delivered, if the pieces that are objects are the objects of the
text. -/
theorem delivers_parts {inObject : ℕ → Prop} {pieces parts : List Piece} (room : ℕ)
    (reason : String) (hascii : IsAscii (Piece.joined pieces).toList)
    (hobject : ∀ i p, Piece.at? pieces i = some p → (inObject i ↔ ∃ text, p = .object text))
    (h : CutsInto pieces parts) :
    Delivers (Piece.joined pieces) inObject parts room reason
      (Sink.writeAll parts (.ofRoom room reason)) := by
  have hcontents : (Sink.writeAll parts (.ofRoom room reason)).2.contents =
      String.ofList ((Piece.joined pieces).toList.take room) := by
    rw [Sink.contents_writeAll, h.joined_eq]
    rfl
  have hfails : room < (Piece.joined pieces).length → ∃ p, Piece.at? pieces room = some p ∧
      (Sink.writeAll parts (.ofRoom room reason)).1 = .error (p.error reason) := by
    intro hlt
    have hp : Piece.at? pieces room ≠ none := by
      rw [Ne, Piece.at?_eq_none_iff]
      omega
    obtain ⟨p, hp⟩ := Option.ne_none_iff_exists'.mp hp
    have herror := h.map_error_at? reason room
    rw [hp, Option.map_some, Option.map_eq_some_iff] at herror
    obtain ⟨q, hq, heq⟩ := herror
    refine ⟨p, hp, ?_⟩
    rw [← heq]
    exact Sink.writeAll_of_some hq
  constructor
  · exact hascii
  · intro hle
    refine ⟨Sink.writeAll_of_none ?_, ?_⟩
    · show Piece.at? parts room = none
      rwa [Piece.at?_eq_none_iff, h.joined_eq]
    · rw [hcontents, List.take_of_length_le (by rwa [String.length_toList]), String.ofList_toList]
  · exact hcontents
  · intro hlt hin
    obtain ⟨p, hp, herror⟩ := hfails hlt
    obtain ⟨text, rfl⟩ := (hobject room p hp).mp hin
    exact herror
  · intro hlt hout
    obtain ⟨p, hp, herror⟩ := hfails hlt
    cases p with
    | plain text => exact herror
    | object text => exact absurd ((hobject room _ hp).mpr ⟨text, rfl⟩) hout
  · intro hlt
    have hq : Piece.at? parts room ≠ none := by
      rw [Ne, Piece.at?_eq_none_iff, h.joined_eq]
      omega
    obtain ⟨q, hq⟩ := Option.ne_none_iff_exists'.mp hq
    obtain ⟨front, back, rfl, hle, hlt'⟩ := Piece.exists_split_of_at?_eq_some hq
    refine ⟨front, q, back, rfl, hle, hlt', ?_⟩
    have htaken := Sink.taken_writeAll_of_lt (s := .ofRoom room reason) front back hle hlt'
    rwa [show (Sink.ofRoom room reason).taken = [] from rfl, List.append_nil] at htaken

namespace TableRecord

/-- The number of characters of the lines of the tables. -/
def linesLength (tables : List CodeTable) : ℕ :=
  (tables.map fun table => (ofTable table).render.length + 1).sum

lemma linesLength_cons (table : CodeTable) (tables : List CodeTable) :
    linesLength (table :: tables) = (ofTable table).render.length + 1 + linesLength tables := by
  simp [linesLength]

/-- The object that has character `i` of the lines is that of a table, behind the lines of the
tables before it. -/
theorem object_at?_iff {tables : List CodeTable} {i : ℕ} {p : Piece}
    (h : Piece.at? (tables.flatMap fun table => [.object (ofTable table).render, .plain "\n"]) i =
      some p) :
    (∃ text, p = .object text) ↔ ∃ before table after, tables = before ++ table :: after ∧
      ∃ j < (ofTable table).render.length, i = linesLength before + j := by
  induction tables generalizing i with
  | nil => cases h
  | cons table tables ih =>
    have hnewline : (Piece.plain "\n").text.length = 1 := rfl
    rw [List.flatMap_cons, List.cons_append, List.cons_append, List.nil_append, Piece.at?,
      Piece.at?, hnewline] at h
    split_ifs at h with hobject hplain
    · obtain rfl := Option.some.inj h
      exact iff_of_true ⟨_, rfl⟩ ⟨[], table, tables, rfl, i, hobject, by simp [linesLength]⟩
    · obtain rfl := Option.some.inj h
      refine iff_of_false (by simp) ?_
      rintro ⟨before, other, after, heq, j, hj, rfl⟩
      cases before with
      | nil =>
        obtain ⟨rfl, -⟩ := List.cons.inj heq
        rw [show linesLength [] = 0 from rfl, Nat.zero_add] at hobject
        exact hobject hj
      | cons first before =>
        obtain ⟨rfl, -⟩ := List.cons.inj heq
        rw [linesLength_cons] at hplain
        change _ - (ofTable table).render.length < 1 at hplain
        omega
    · change ¬ i < (ofTable table).render.length at hobject
      change ¬ i - (ofTable table).render.length < 1 at hplain
      change Piece.at? _ (i - (ofTable table).render.length - 1) = some p at h
      rw [ih h]
      constructor
      · rintro ⟨before, other, after, rfl, j, hj, hi⟩
        refine ⟨table :: before, other, after, rfl, j, hj, ?_⟩
        rw [linesLength_cons]
        omega
      · rintro ⟨before, other, after, heq, j, hj, rfl⟩
        cases before with
        | nil =>
          obtain ⟨rfl, -⟩ := List.cons.inj heq
          exact absurd (by simpa [linesLength] using hj) hobject
        | cons first before =>
          obtain ⟨rfl, rfl⟩ := List.cons.inj heq
          refine ⟨before, other, after, rfl, j, hj, ?_⟩
          rw [linesLength_cons]
          omega

end TableRecord

namespace CodeFamily

/-- Character `i` of the output for the family lies inside the JSON object of a table. Each
table is an object and a line end. -/
def InObject (f : CodeFamily) (o : OutputSettings) (i : ℕ) : Prop :=
  o.format = .json ∧ ∃ before table after, f.tables = before ++ table :: after ∧
    ∃ j < (TableRecord.ofTable table).render.length, i = TableRecord.linesLength before + j

lemma object_at?_pieces_iff {f : CodeFamily} {o : OutputSettings} {i : ℕ} {p : Piece}
    (h : Piece.at? (f.pieces o) i = some p) : f.InObject o i ↔ ∃ text, p = .object text := by
  unfold InObject
  cases hformat : o.format with
  | json =>
    rw [pieces_of_json hformat] at h
    rw [TableRecord.object_at?_iff h]
    exact and_iff_right rfl
  | c =>
    have hplain : ∀ q ∈ f.pieces o, ∃ text, q = .plain text := by
      rw [pieces_of_c hformat]
      refine List.forall_mem_append.mpr ⟨List.forall_mem_flatMap.mpr fun table _ => ?_, ?_⟩
      · exact forall_mem_pair.mpr ⟨⟨_, rfl⟩, ⟨_, rfl⟩⟩
      · split_ifs
        · exact forall_mem_pair.mpr ⟨⟨_, rfl⟩, ⟨_, rfl⟩⟩
        · exact List.forall_mem_nil _
    obtain ⟨front, back, heq, -, -⟩ := Piece.exists_split_of_at?_eq_some h
    obtain ⟨text, rfl⟩ := hplain p (by simp [heq])
    exact iff_of_false (by simp) (by simp)

end CodeFamily

/-- A sink that fills up has taken the front of the text, whatever writes the text is cut into.
This holds of a family in both formats and of a failure table. The error is the one for JSON
where the first character that was not taken lies inside the object of a table, and the plain
one anywhere else. -/
theorem full_sink_keeps_front (room : ℕ) (reason : String) :
    (∀ (f : CodeFamily) (o : OutputSettings),
      Delivers (f.render o) (f.InObject o) (f.pieces o) room reason
        (f.write o (.ofRoom room reason)) ∧
      ∀ parts, CutsInto (f.pieces o) parts →
        Delivers (f.render o) (f.InObject o) parts room reason
          (Sink.writeAll parts (.ofRoom room reason))) ∧
    ∀ t : FailureTable,
      Delivers t.render (fun _ => False) t.pieces room reason (t.write (.ofRoom room reason)) ∧
      ∀ parts, CutsInto t.pieces parts →
        Delivers t.render (fun _ => False) parts room reason
          (Sink.writeAll parts (.ofRoom room reason)) := by
  constructor
  · intro f o
    have hparts : ∀ parts, CutsInto (f.pieces o) parts →
        Delivers (f.render o) (f.InObject o) parts room reason
          (Sink.writeAll parts (.ofRoom room reason)) :=
      fun parts => delivers_parts room reason (f.isAscii_render o)
        fun _ _ => CodeFamily.object_at?_pieces_iff
    refine ⟨?_, hparts⟩
    rw [CodeFamily.write_eq_writeAll]
    exact hparts _ (.refl _)
  · intro t
    have hplain : ∀ i p, Piece.at? t.pieces i = some p → (False ↔ ∃ text, p = .object text) := by
      intro i p h
      obtain ⟨front, back, heq, -, -⟩ := Piece.exists_split_of_at?_eq_some h
      have hp : p ∈ t.pieces := by simp [heq]
      obtain rfl | rfl : p = .plain t.countDefinition ∨ p = .plain t.arrayDefinition := by
        simpa [FailureTable.pieces] using hp
      · exact iff_of_false id (by simp)
      · exact iff_of_false id (by simp)
    have hparts : ∀ parts, CutsInto t.pieces parts →
        Delivers t.render (fun _ => False) parts room reason
          (Sink.writeAll parts (.ofRoom room reason)) :=
      fun parts => delivers_parts room reason t.isAscii_render hplain
    exact ⟨hparts _ (.refl _), hparts⟩

/-- Two tables for three parities, of one and of two data elements. -/
def pairFamily : CodeFamily := ⟨Search.threeTwo, [⟨3⟩, ⟨5⟩], 1, by decide⟩

/-- The first object has 77 characters. With room for no more the line end fails. In the second
object the sink fails at place 98, also when the writes of the object are cut at that place. -/
theorem pairFamily_cut_off :
    (¬ pairFamily.InObject ⟨.json, .plain, false⟩ 77 ∧
      (pairFamily.write ⟨.json, .plain, false⟩ (.ofRoom 77 "sink full")).1 =
        .error (.io "sink full")) ∧
    ∃ parts, CutsInto (pairFamily.pieces ⟨.json, .plain, false⟩) parts ∧ parts.length = 5 ∧
      pairFamily.InObject ⟨.json, .plain, false⟩ 98 ∧
      (Sink.writeAll parts (.ofRoom 98 "sink full")).1 = .error (.json "sink full") ∧
      (Sink.writeAll parts (.ofRoom 98 "sink full")).2.contents =
        String.ofList ((pairFamily.render ⟨.json, .plain, false⟩).toList.take 98) := by
  have hend : ¬ pairFamily.InObject ⟨.json, .plain, false⟩ 77 := by
    have hplace : Piece.at? (pairFamily.pieces ⟨.json, .plain, false⟩) 77 = some (.plain "\n") := by
      decide +kernel
    simp [CodeFamily.object_at?_pieces_iff hplace]
  have hplace : Piece.at? (pairFamily.pieces ⟨.json, .plain, false⟩) 98 =
      some (.object (TableRecord.ofTable (pairFamily.tableAt 2)).render) := by
    decide +kernel
  have hobject : pairFamily.InObject ⟨.json, .plain, false⟩ 98 :=
    (CodeFamily.object_at?_pieces_iff hplace).mpr ⟨_, rfl⟩
  have hlength : 98 < (pairFamily.render ⟨.json, .plain, false⟩).length := by
    refine Nat.lt_of_not_le fun hle => ?_
    rw [Piece.at?_eq_none_iff.mpr hle] at hplace
    cases hplace
  have hpieces : pairFamily.pieces ⟨.json, .plain, false⟩ =
      [.object (TableRecord.ofTable (pairFamily.tableAt 1)).render] ++ ([.plain "\n"] ++
        [.object (TableRecord.ofTable (pairFamily.tableAt 2)).render, .plain "\n"]) := rfl
  have hcut : CutsInto (pairFamily.pieces ⟨.json, .plain, false⟩)
      ([.object (TableRecord.ofTable (pairFamily.tableAt 1)).render] ++ ([.plain "\n"] ++
        ([.object "\x7b\"name\":\"2_3_3\",\"k\"",
          .object (":2,\"m\":3,\"hd\":3,\"data_bms\":[3,5]," ++
            "\"parity_bms\":[\"3\",\"1\",\"2\"]\x7d")] ++ [.plain "\n"]))) := by
    rw [hpieces]
    refine .cons (by decide +kernel) (by simp) (.cons rfl (by simp) (.cons ?_ ?_ (.refl _)))
    · decide +kernel
    · simp [Piece.error]
  have hwhole := ((full_sink_keeps_front 77 "sink full").1 pairFamily ⟨.json, .plain, false⟩).1
  have hparts := ((full_sink_keeps_front 98 "sink full").1 pairFamily ⟨.json, .plain, false⟩).2
    _ hcut
  exact ⟨⟨hend, hwhole.error_io (by omega) hend⟩, _, hcut, rfl, hobject,
    hparts.error_json hlength hobject, hparts.contents_eq⟩

end FlatXor
