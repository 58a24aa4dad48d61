import FlatXor.Settings
import Mathlib.Data.List.Induction
import Mathlib.Data.List.Nodup

/-!
# What a settings file says

A setting is what the file says of it, or the default where the file is silent. What the file
says is looked up in its values: the last value under the key where a section is a table, and
the value in the place of the field where it is an array.
-/
namespace FlatXor

namespace Toml.Value

variable {α β : Type}

/-- The values of a section with their keys. In an array they stand in the places of the
fields. -/
def members (keys : List String) : Value → List (String × Value)
  | table _ entries => entries
  | array items => keys.zip items
  | tables elements => keys.zip (elements.map (table .header))
  | _ => []

/-- What a section says of a field. What it says last counts. -/
def said? (keys : List String) (key : String) (v : Value) : Option Value :=
  (v.members keys).reverse.lookup key

/-- The section with one more of its values. -/
def setMember? (fields : List (SettingsField α)) (a : α) (e : String × Value) : Option α :=
  match fields.find? (·.key == e.1) with
  | some field => field.set? a e.2
  | none => some a

/-- The fields have different keys. The field under the key holds what its value stands for, and
no other field changes it. -/
structure Governs (fields : List (SettingsField α)) (key : String) (parse : Value → Option β)
    (get : α → β) : Prop where
  keys : (fields.map SettingsField.key).Nodup
  known : ∃ field ∈ fields, field.key = key
  set : ∀ field ∈ fields, ∀ a v a', field.set? a v = some a' →
    if field.key = key then parse v = some (get a') else get a' = get a

/-- Setting the field leaves what is read as it is. -/
def SettingsField.Spares (field : SettingsField α) (get : α → β) : Prop :=
  ∀ a v a', field.set? a v = some a' → get a' = get a

variable {fields : List (SettingsField α)} {initial a : α} {v : Value}

lemma SettingsField.spares_holding {γ : Type} {key : String} {parse : Value → Option γ}
    {put : α → γ → α} {get : α → β} (h : ∀ a b, get (put a b) = get a) :
    (holding key parse put).Spares get := by
  intro a v a' hset
  obtain ⟨b, -, rfl⟩ := Option.map_eq_some_iff.mp hset
  exact h a b

/-- Among fields with different keys one governs what is read if it puts there what its value
stands for and all others leave it alone. -/
theorem Governs.of_getElem? {key : String} {parse : Value → Option β} {put : α → β → α}
    {get : α → β} (i : ℕ) (hfield : fields[i]? = some (.holding key parse put))
    (hkeys : (fields.map SettingsField.key).Nodup) (hput : ∀ a b, get (put a b) = b)
    (hothers : ∀ field ∈ fields, field.key ≠ key → field.Spares get) :
    Governs fields key parse get where
  keys := hkeys
  known := ⟨_, List.mem_of_getElem? hfield, rfl⟩
  set := by
    intro field hmem a v a' hset
    by_cases hkey : field.key = key
    · obtain rfl : field = .holding key parse put :=
        List.inj_on_of_nodup_map hkeys hmem (List.mem_of_getElem? hfield) hkey
      obtain ⟨b, hb, rfl⟩ := Option.map_eq_some_iff.mp hset
      rw [if_pos hkey, hput]
      exact hb
    · rw [if_neg hkey]
      exact hothers field hmem hkey a v a' hset

lemma find?_key (hkeys : (fields.map SettingsField.key).Nodup) {field : SettingsField α}
    (hfield : field ∈ fields) : fields.find? (·.key == field.key) = some field := by
  obtain ⟨other, hother⟩ := Option.isSome_iff_exists.mp
    (List.find?_isSome (p := (·.key == field.key)).mpr ⟨field, hfield, beq_self_eq_true _⟩)
  have hkey : other.key = field.key := by simpa using List.find?_some hother
  rw [hother, List.inj_on_of_nodup_map hkeys (List.mem_of_find?_eq_some hother) hfield hkey]

/-- Values in the places of the fields are set as those under the keys of the fields. -/
lemma foldlM_zip (hkeys : (fields.map SettingsField.key).Nodup)
    {l : List (SettingsField α × Value)} (hl : ∀ e ∈ l, e.1 ∈ fields) :
    l.foldlM (fun a e => e.1.set? a e.2) initial =
      (l.map fun e => (e.1.key, e.2)).foldlM (setMember? fields) initial := by
  induction l generalizing initial with
  | nil => rfl
  | cons e l ih =>
    have hset : setMember? fields initial (e.1.key, e.2) = e.1.set? initial e.2 := by
      rw [setMember?, find?_key hkeys (hl e List.mem_cons_self)]
    rw [List.map_cons, List.foldlM_cons, List.foldlM_cons, hset]
    congr 1
    funext a
    exact ih fun d hd => hl d (List.mem_cons_of_mem _ hd)

/-- A section is its values, set one after the other. -/
lemma foldlM_members (hkeys : (fields.map SettingsField.key).Nodup)
    (h : sectionOf? fields initial v = some a) :
    (v.members (fields.map SettingsField.key)).foldlM (setMember? fields) initial = some a := by
  cases v with
  | table origin entries => exact h
  | array items =>
    rw [sectionOf?, foldlM_zip hkeys fun e he => (List.of_mem_zip he).1] at h
    rw [members, List.zip_map_left]
    exact h
  | tables elements =>
    have hzip : fields.zip (elements.map (table .header)) =
        (fields.zip elements).map fun e => (e.1, table .header e.2) := List.zip_map_right ..
    rw [members, List.zip_map_left]
    refine Eq.trans (foldlM_zip hkeys fun e he => (List.of_mem_zip he).1).symm ?_
    rw [hzip, List.foldlM_map]
    exact h
  | dateTime => exact h
  | string | integer | float | boolean => cases h

section

variable {key : String} {parse : Value → Option β} {get : α → β}

/-- A value under the key is what the field holds afterwards. Under another key it leaves the
field alone. -/
lemma Governs.setMember (h : Governs fields key parse get) {e : String × Value}
    (hset : setMember? fields initial e = some a) :
    if e.1 = key then parse e.2 = some (get a) else get a = get initial := by
  cases hfind : fields.find? (·.key == e.1) with
  | none =>
    have hkey : ¬ e.1 = key := by
      obtain ⟨field, hfield, rfl⟩ := h.known
      intro hkey
      exact List.find?_eq_none.mp hfind field hfield (by simp [hkey])
    rw [setMember?, hfind] at hset
    rw [if_neg hkey, Option.some.inj hset]
  | some field =>
    have hkey : field.key = e.1 := by simpa using List.find?_some hfind
    rw [setMember?, hfind] at hset
    rw [← hkey]
    exact h.set field (List.mem_of_find?_eq_some hfind) _ _ _ hset

/-- After the values of a section have been set, a field holds what has been said of it. -/
lemma Governs.foldlM (h : Governs fields key parse get) {l : List (String × Value)}
    (hl : l.foldlM (setMember? fields) initial = some a) :
    (l.reverse.lookup key).elim (some (get initial)) parse = some (get a) := by
  induction l using List.reverseRecOn generalizing a with
  | nil =>
    obtain rfl := Option.some.inj hl
    rfl
  | append_singleton l e ih =>
    rw [List.foldlM_append] at hl
    obtain ⟨before, hbefore, hlast⟩ := Option.bind_eq_some_iff.mp hl
    have hset := h.setMember (a := a) (e := e) (by simpa using hlast)
    rw [List.reverse_concat, List.lookup_cons]
    by_cases hkey : e.1 = key
    · rw [if_pos hkey] at hset
      simp [hkey, hset]
    · have hbeq : (key == e.1) = false := by simpa using Ne.symm hkey
      rw [if_neg hkey] at hset
      rw [hbeq, hset]
      exact ih hbefore

/-- A field of a section holds what the section says of it, or what it has held before where
the section is silent. -/
theorem Governs.sectionOf (h : Governs fields key parse get)
    (hs : sectionOf? fields initial v = some a) :
    (v.said? (fields.map SettingsField.key) key).elim (some (get initial)) parse = some (get a) :=
  h.foldlM (foldlM_members h.keys hs)

end

end Toml.Value

/-- What a settings file says of the search and of the output. Where the file is silent there is
nothing. -/
structure FileSettings where
  maxSteps : Option ℕ
  detectOscillation : Option Bool
  format : Option OutputFormat
  declaration : Option Declaration
  index : Option Bool
  deriving Repr, DecidableEq

namespace FileSettings

open Toml Toml.Value Settings

def nothing : FileSettings := ⟨none, none, none, none, none⟩

/-- What a document says of a field in the section with the given name. -/
def said? {α : Type} (entries : Entries) (name : String) (sub : List (SettingsField α))
    (key : String) : Option Value :=
  (entries.reverse.lookup name).bind fun v => v.said? (sub.map SettingsField.key) key

def ofEntries (entries : Entries) : FileSettings where
  maxSteps := (said? entries "search" searchFields "max_steps").bind toNat?
  detectOscillation := (said? entries "search" searchFields "detect_oscillation").bind toBool?
  format := (said? entries "output" outputFields "format").bind fun v =>
    v.toWord?.bind OutputFormat.ofWord?
  declaration := (said? entries "output" outputFields "declaration").bind fun v =>
    v.toWord?.bind Declaration.ofWord?
  index := (said? entries "output" outputFields "index").bind toBool?

/-- What the settings file at the path says, if it can be read as a document. Without a path
nothing is said. -/
def load? (contentAt : String → FileContent) : Option String → Option FileSettings
  | none => some nothing
  | some path =>
    match contentAt path with
    | .bytes data => ((String.fromUTF8? data).bind Document.parse?).map ofEntries
    | _ => none

/-- The settings of the search, by default where the file is silent. -/
def search (file : FileSettings) : SearchSettings :=
  ⟨file.maxSteps.getD SearchLimits.defaultMaxSteps, file.detectOscillation.getD true⟩

/-- The settings of the output, by default where the file is silent. -/
def output (file : FileSettings) : OutputSettings :=
  ⟨file.format.getD .c, file.declaration.getD .plain, file.index.getD false⟩

/-! ## Which fields govern what -/

lemma governs_maxSteps :
    Governs searchFields "max_steps" toNat? SearchSettings.maxSteps :=
  .of_getElem? 0 rfl (by decide) (fun _ _ => rfl)
    (by simp [searchFields, SettingsField.spares_holding])

lemma governs_detectOscillation :
    Governs searchFields "detect_oscillation" toBool? SearchSettings.detectOscillation :=
  .of_getElem? 1 rfl (by decide) (fun _ _ => rfl)
    (by simp [searchFields, SettingsField.spares_holding])

lemma governs_format :
    Governs outputFields "format" (fun v => v.toWord?.bind OutputFormat.ofWord?)
      OutputSettings.format :=
  .of_getElem? 0 rfl (by decide) (fun _ _ => rfl)
    (by simp [outputFields, SettingsField.spares_holding])

lemma governs_declaration :
    Governs outputFields "declaration" (fun v => v.toWord?.bind Declaration.ofWord?)
      OutputSettings.declaration :=
  .of_getElem? 1 rfl (by decide) (fun _ _ => rfl)
    (by simp [outputFields, SettingsField.spares_holding])

lemma governs_index :
    Governs outputFields "index" toBool? OutputSettings.index :=
  .of_getElem? 2 rfl (by decide) (fun _ _ => rfl)
    (by simp [outputFields, SettingsField.spares_holding])

lemma governs_search :
    Governs fields "search" (sectionOf? searchFields .default) Settings.search :=
  .of_getElem? 0 rfl (by decide) (fun _ _ => rfl)
    (by simp [fields, SettingsField.spares_holding])

lemma governs_output :
    Governs fields "output" (sectionOf? outputFields .default) Settings.output :=
  .of_getElem? 1 rfl (by decide) (fun _ _ => rfl)
    (by simp [fields, SettingsField.spares_holding])

/-! ## The settings of a file -/

section

variable {α β : Type} {name key : String} {sub : List (SettingsField α)} {initial : α}
  {part : Settings → α} {parse : Value → Option β} {get : α → β} {entries : Entries}
  {settings : Settings}

/-- A field of a section of a document is what the document says of it, or the default. -/
theorem eq_getD_said (hpart : Governs fields name (sectionOf? sub initial) part)
    (hfield : Governs sub key parse get) (hdefault : part default = initial)
    (hs : sectionOf? fields default (.table .header entries) = some settings) :
    get (part settings) = ((said? entries name sub key).bind parse).getD (get initial) := by
  have houter := hpart.sectionOf hs
  rw [hdefault] at houter
  change (entries.reverse.lookup name).elim _ _ = _ at houter
  rw [said?]
  cases hsection : entries.reverse.lookup name with
  | none =>
    rw [hsection] at houter
    simp [Option.some.inj houter]
  | some v =>
    rw [hsection] at houter
    have hinner := hfield.sectionOf houter
    rw [Option.bind_some]
    cases hvalue : v.said? (sub.map SettingsField.key) key with
    | none =>
      rw [hvalue] at hinner
      simpa using (Option.some.inj hinner).symm
    | some w =>
      rw [hvalue] at hinner
      simp_all

end

/-- The settings that a text describes are what its document says, and the default where it is
silent. -/
theorem of_parse? {text : String} {settings : Settings} (h : Settings.parse? text = some settings) :
    ∃ entries, Document.parse? text = some entries ∧
      settings.search = (ofEntries entries).search ∧
      settings.output = (ofEntries entries).output := by
  obtain ⟨entries, hentries, hs⟩ := Option.bind_eq_some_iff.mp h
  refine ⟨entries, hentries, ?_, ?_⟩
  · have hmax := eq_getD_said governs_search governs_maxSteps rfl hs
    have hdetect := eq_getD_said governs_search governs_detectOscillation rfl hs
    exact (SearchSettings.mk.injEq ..).mpr ⟨hmax, hdetect⟩
  · have hformat := eq_getD_said governs_output governs_format rfl hs
    have hdeclaration := eq_getD_said governs_output governs_declaration rfl hs
    have hindex := eq_getD_said governs_output governs_index rfl hs
    exact (OutputSettings.mk.injEq ..).mpr ⟨hformat, hdeclaration, hindex⟩

/-- Settings come from a file that is a text and that describes them. -/
lemma exists_text_of_ofFile {path : String} {content : FileContent} {settings : Settings}
    (h : Settings.ofFile path content = .ok settings) :
    ∃ data text, content = .bytes data ∧ String.fromUTF8? data = some text ∧
      Settings.parse? text = some settings := by
  unfold Settings.ofFile at h
  split at h
  · cases h
  · cases h
  · cases h
  · next data =>
    split at h
    · cases h
    · next text htext =>
      split at h
      · next hparse => exact ⟨data, text, rfl, htext, by rw [hparse, Except.ok.inj h]⟩
      · cases h

/-- Settings that load are what the file at the path says, and the default where it is silent or
no path is given. -/
theorem of_load {contentAt : String → FileContent} {path : Option String} {settings : Settings}
    (h : Settings.load contentAt path = .ok settings) :
    ∃ file, load? contentAt path = some file ∧ settings.search = file.search ∧
      settings.output = file.output := by
  cases path with
  | none =>
    obtain rfl := Except.ok.inj h
    exact ⟨nothing, rfl, rfl, rfl⟩
  | some path =>
    obtain ⟨data, text, hcontent, htext, hparse⟩ := exists_text_of_ofFile h
    obtain ⟨entries, hentries, hsearch, houtput⟩ := of_parse? hparse
    refine ⟨ofEntries entries, ?_, hsearch, houtput⟩
    rw [load?, hcontent]
    simp [htext, hentries]

end FileSettings

end FlatXor
