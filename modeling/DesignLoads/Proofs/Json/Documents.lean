import DesignLoads.Combination
import DesignLoads.Failure.Form
import DesignLoads.Proofs.Json.Meaning
import DesignLoads.Proofs.Timestamp
import DesignLoads.RuleSet.Basic

/-! Documents survive their JSON form. A value whose numbers are in range is read back as it was,
field by field: an absent field as absent, an empty one as empty, and nothing is replaced by the
default of a field that is missing. -/

namespace DesignLoads

open Json

variable {outer : Nat}

namespace LoadCase

/-- Every coefficient is given back by its text. -/
def Fits (c : LoadCase) : Prop := ∀ e ∈ c.entries, Restored e.2

theorem Fits.restores {c : LoadCase} (h : c.Fits) : Restores outer c := by
  constructor
  · apply Finite.object
    intro m hm
    obtain ⟨e, he, rfl⟩ := List.mem_map.mp hm
    exact finite_ofFloat e.2
  · have hmap : Source.map? Source.float? (source (toJson c)) = some c.coefficients :=
      map?_source fun e he => float?_source (h e he)
    change (Source.map? Source.float? (source (toJson c))).map _ = _
    rw [hmap, Option.map_some]
    exact congrArg some (rebuilt_eq c)

end LoadCase

namespace Term

def Fits (t : Term) : Prop := Restored t.coefficient

theorem Fits.restores {t : Term} (h : t.Fits) : Restores outer t := by
  constructor
  · apply Finite.object
    simp
  · have hfields : (source (toJson t)).fields? ["name", "coefficient"] =
        some [some (source (.string t.name)), some (source (.ofFloat t.coefficient))] := by
      simp [toJson, fields?_source, List.lookup]
    simp only [Form.ofSource?, hfields, required_some, string?_source, float?_source h,
      Option.bind_eq_bind, Option.bind_some, Option.pure_def]

end Term

namespace Options

/-- The values are nested at most a hundred levels deep. -/
def Fits (o : Options) : Prop := ∀ e ∈ o.values.entries, Storable 100 e.2

theorem Fits.restores {o : Options} (h : o.Fits) (houter : outer ≤ 20) : Restores outer o := by
  constructor
  · exact Finite.object fun e he => (h e he).finite
  · obtain ⟨depth, hdepth, hle⟩ : ∃ n, Source.depthLimit - outer = n + 1 ∧ 100 ≤ n :=
      ⟨126 - outer, by simp only [Source.depthLimit]; omega, by omega⟩
    have hmembers : Source.membersToJson? depth
        (o.values.entries.map fun m => (some m.1, source m.2)) = some o.values.entries :=
      membersToJson?_source fun e he => (h e he).toJson? hle
    simp only [Form.ofSource?, toJson, source, memberSources_eq, hdepth, hmembers,
      Option.map_some, NameMap.ofList_entries]

end Options

namespace Combination

structure Fits (c : Combination) : Prop where
  alternatives : ∀ a ∈ c.alternatives, a.Fits
  options : ∀ o ∈ c.options, o.Fits

theorem Fits.restores {c : Combination} (h : c.Fits) (houter : outer ≤ 19) :
    Restores outer c := by
  have halternatives : Restores (outer + 1) c.alternatives :=
    restores_list fun a ha => (h.alternatives a ha).restores
  have hrestores : ∀ o ∈ c.options, Restores (outer + 1) o := fun o ho =>
    (h.options o ho).restores (by omega)
  have hoptions := optional_source (fun o ho => (hrestores o ho).read) (fun _ => by simp [toJson])
  constructor
  · apply Finite.object
    cases ho : c.options with
    | none => simp [halternatives.finite]
    | some o => simp [halternatives.finite, (hrestores o ho).finite]
  · have hfields : (source (toJson c)).fields? ["name", "alternatives", "options"] =
        some [some (source (.string c.name)), some (source (toJson c.alternatives)),
          c.options.map fun o => source (toJson o)] := by
      rw [toJson]
      cases ho : c.options <;> simp [instFormCombination, ho, fields?_source, List.lookup]
    generalize source (toJson c) = s at hfields ⊢
    rw [Form.ofSource?]
    simp only [instFormCombination, hfields, required_some, string?_source, halternatives.read,
      hoptions, Option.bind_eq_bind, Option.bind_some, Option.pure_def]

end Combination

namespace Settings

def Fits (s : Settings) : Prop := ∀ n ∈ s.maxAlternatives, n < 2 ^ 64

theorem Fits.restores {s : Settings} (h : s.Fits) : Restores outer s := by
  have hlimit : Source.option? Source.nat?
      (source ((s.maxAlternatives.map ofNat).getD .null)) = some s.maxAlternatives := by
    cases hs : s.maxAlternatives with
    | none => rfl
    | some n => exact option?_source (nat?_source (h n hs)) (by simp [ofNat])
  constructor
  · apply Finite.object
    cases s.maxAlternatives <;> simp
  · have hfields : (source (toJson s)).fields? ["max_alternatives", "eager"] =
        some [some (source ((s.maxAlternatives.map ofNat).getD .null)),
          some (source (.bool s.eager))] := by
      rw [toJson]
      simp [instFormSettings, fields?_source, List.lookup]
    generalize source (toJson s) = t at hfields ⊢
    rw [Form.ofSource?]
    simp only [instFormSettings, hfields, defaulting_some, hlimit, bool?_source,
      Option.bind_eq_bind, Option.bind_some, Option.pure_def]

end Settings

namespace Extremes

/-- The values are given back by their texts, and the indices fit in 64 bits. -/
structure Fits {ι : Type} (index : ι → Nat) (e : Extremes ι) : Prop where
  max : Restored e.max.value
  maxIndex : index e.max.place < 2 ^ 64
  min : Restored e.min.value
  minIndex : index e.min.place < 2 ^ 64

theorem Fits.restores_envelope {e : Envelope} (h : Extremes.Fits id e) : Restores outer e := by
  constructor
  · apply Finite.object
    simp
  · have hfields : (source (toJson e)).fields?
        ["max_value", "max_index", "min_value", "min_index"] =
          some [some (source (ofFloat e.max.value)), some (source (ofNat e.max.place)),
            some (source (ofFloat e.min.value)), some (source (ofNat e.min.place))] := by
      rw [toJson]
      simp [instFormEnvelope, fields?_source, List.lookup]
    have hmax := nat?_source h.maxIndex
    have hmin := nat?_source h.minIndex
    generalize source (toJson e) = s at hfields ⊢
    rw [Form.ofSource?]
    simp only [id_eq] at hmax hmin
    simp only [instFormEnvelope, hfields, required_some, float?_source h.max, float?_source h.min,
      hmax, hmin, Option.bind_eq_bind, Option.bind_some, Option.pure_def]

theorem place?_source {p : String × Nat} (h : p.2 < 2 ^ 64) :
    Governing.place? (source (Governing.placeToJson p)) = some p := by
  have hindex := nat?_source h
  simp only [Governing.placeToJson, source, sources_eq, List.map_cons, List.map_nil,
    Governing.place?, hindex]
  rfl

theorem Fits.restores_governing {g : Governing} (h : Extremes.Fits Prod.snd g) :
    Restores outer g := by
  constructor
  · apply Finite.object
    have hplace (p : String × Nat) : (Governing.placeToJson p).Finite := by
      apply Finite.array
      simp
    simp [hplace]
  · have hfields : (source (toJson g)).fields?
        ["max_value", "max_combo", "min_value", "min_combo"] =
          some [some (source (ofFloat g.max.value)),
            some (source (Governing.placeToJson g.max.place)),
            some (source (ofFloat g.min.value)),
            some (source (Governing.placeToJson g.min.place))] := by
      rw [toJson]
      simp [instFormGoverning, fields?_source, List.lookup]
    generalize source (toJson g) = s at hfields ⊢
    rw [Form.ofSource?]
    simp only [instFormGoverning, hfields, required_some, float?_source h.max, float?_source h.min,
      place?_source h.maxIndex, place?_source h.minIndex, Option.bind_eq_bind, Option.bind_some,
      Option.pure_def]

end Extremes

namespace Timestamp

/-- A time of the years that are written without a sign. -/
structure Fits (t : Timestamp) : Prop where
  valid : t.isValid
  least : 0 ≤ t.date.year
  greatest : t.date.year ≤ 9999

theorem Fits.restores {t : Timestamp} (h : t.Fits) : Restores outer t := by
  refine ⟨.string, ?_⟩
  change (Source.string? (source (.string t.text))).bind parse? = some t
  rw [string?_source, Option.bind_some]
  exact parse?_text h.valid h.least h.greatest

end Timestamp

namespace Header

structure Fits (h : Header) : Prop where
  created : h.created.Fits
  modified : h.modified.Fits

theorem Fits.restores {h : Header} (hh : h.Fits) : Restores outer h := by
  have hcreated : Restores (outer + 1) h.created := hh.created.restores
  have hmodified : Restores (outer + 1) h.modified := hh.modified.restores
  have hcode : defaulting none (Source.option? Source.string?)
      (h.designCode.map fun code => source (.string code)) = some h.designCode :=
    optional_source (fun _ _ => rfl) (by simp)
  constructor
  · apply Finite.object
    cases h.designCode <;> simp [hcreated.finite, hmodified.finite]
  · have hfields : (source (toJson h)).fields?
        ["version", "title", "engineer", "design_code", "created", "modified"] =
          some [some (source (.string h.version)), some (source (.string h.title)),
            some (source (.string h.engineer)), h.designCode.map fun code => source (.string code),
            some (source (toJson h.created)), some (source (toJson h.modified))] := by
      rw [toJson]
      cases hd : h.designCode <;> simp [instFormHeader, hd, fields?_source, List.lookup]
    generalize source (toJson h) = s at hfields ⊢
    rw [Form.ofSource?]
    simp only [instFormHeader, hfields, required_some, string?_source, defaulting_some, hcode,
      hcreated.read, hmodified.read, Option.bind_eq_bind, Option.bind_some, Option.pure_def]

end Header

namespace Attachment

def Fits (a : Attachment) : Prop := a.options.Fits

theorem Fits.restores {a : Attachment} (h : a.Fits) (houter : outer ≤ 19) : Restores outer a := by
  have hoptions : Restores (outer + 1) a.options := Options.Fits.restores h (by omega)
  constructor
  · apply Finite.object
    simp [hoptions.finite]
  · have hfields : (source (toJson a)).fields? ["pattern", "options"] =
        some [some (source (.string a.pattern)), some (source (toJson a.options))] := by
      rw [toJson]
      simp [instFormAttachment, fields?_source, List.lookup]
    generalize source (toJson a) = s at hfields ⊢
    rw [Form.ofSource?]
    simp only [instFormAttachment, hfields, required_some, string?_source, hoptions.read,
      Option.bind_eq_bind, Option.bind_some, Option.pure_def]

end Attachment

namespace RuleSet

structure Fits (s : RuleSet) : Prop where
  header : s.header.Fits
  settings : s.settings.Fits
  attachments : ∀ a ∈ s.attachments, a.Fits

theorem Fits.restores {s : RuleSet} (h : s.Fits) (houter : outer ≤ 17) : Restores outer s := by
  have hheader : Restores (outer + 1) s.header := h.header.restores
  have hsettings : Restores (outer + 1) s.settings := h.settings.restores
  have hattachments : Restores (outer + 1) s.attachments :=
    restores_list fun a ha => (h.attachments a ha).restores (by omega)
  have hstrings (ss : List String) :
      Source.list? Source.string? (source (.array (ss.map .string))) = some ss :=
    list?_source fun _ _ => rfl
  have hfinite (ss : List String) : (Json.array (ss.map .string)).Finite := by
    apply Finite.array
    simp
  -- without attachments the field is left out, and its default is the empty list
  have hoptions : defaulting [] (Form.ofSource? (outer + 1))
      (if s.attachments = [] then none else some (source (toJson s.attachments))) =
        some s.attachments := by
    split
    · rename_i hnil
      rw [hnil, defaulting_none]
    · exact hattachments.read
  constructor
  · apply Finite.object
    by_cases hnil : s.attachments = []
    · simp [hnil, hheader.finite, hsettings.finite, hfinite]
    · simp [hnil, hheader.finite, hsettings.finite, hfinite, hattachments.finite]
  · have hfields : (source (toJson s)).fields?
        ["meta", "settings", "base_cases", "rules", "options"] =
          some [some (source (toJson s.header)), some (source (toJson s.settings)),
            some (source (.array (s.baseCases.map .string))),
            some (source (.array (s.rules.map .string))),
            if s.attachments = [] then none else some (source (toJson s.attachments))] := by
      rw [toJson]
      by_cases hnil : s.attachments = [] <;>
        simp [instFormRuleSet, hnil, fields?_source, List.lookup]
    generalize source (toJson s) = t at hfields ⊢
    rw [Form.ofSource?]
    simp only [instFormRuleSet, hfields, required_some, defaulting_some, hheader.read,
      hsettings.read, hstrings, hoptions, Option.bind_eq_bind, Option.bind_some, Option.pure_def]

end RuleSet

namespace Failure

/-- The counts fit in 64 bits, and a number is given back by its text. -/
def Fits : Failure → Prop
  | incompatibleZip left right => left < 2 ^ 64 ∧ right < 2 ^ 64
  | constantTerm _ x => Restored x
  | tooManyAlternatives count limit => count < 2 ^ 64 ∧ limit < 2 ^ 64
  | _ => True

section Details

variable {α β γ : Type} {first second : String} {x y : Json} {a? : Source → Option α}
  {b? : Source → Option β} {a : α} {b : β}

theorem one_source (make : α → γ) (ha : a? (source x) = some a) :
    one make first a? (source (.object [(first, x)])) = some (make a) := by
  have hfields : (source (.object [(first, x)])).fields? [first] = some [some (source x)] := by
    simp [fields?_source, List.lookup]
  simp only [one, hfields, required_some, ha, Option.bind_eq_bind, Option.bind_some,
    Option.pure_def]

theorem two_source (make : α → β → γ) (hne : first ≠ second) (ha : a? (source x) = some a)
    (hb : b? (source y) = some b) :
    two make first a? second b? (source (.object [(first, x), (second, y)])) =
      some (make a b) := by
  have hfields : (source (.object [(first, x), (second, y)])).fields? [first, second] =
      some [some (source x), some (source y)] := by
    simp [fields?_source, List.lookup, hne, beq_false_of_ne hne.symm]
  simp only [two, hfields, required_some, ha, hb, Option.bind_eq_bind, Option.bind_some,
    Option.pure_def]

end Details

/-- The details of every kind are read back as that kind. -/
theorem Fits.ofDetails?_parts {f : Failure} (h : f.Fits) :
    ofDetails? f.parts.1 (source (.object f.parts.2)) = some f := by
  cases f with
  | parse rule reason => exact two_source parse (by decide) rfl rfl
  | duplicateRule name => exact one_source duplicateRule rfl
  | divisionByZero e => exact one_source divisionByZero rfl
  | nonFiniteFactor e => exact one_source nonFiniteFactor rfl
  | circularReference name path =>
    exact two_source circularReference (by decide) rfl (list?_source fun _ _ => rfl)
  | incompatibleZip left right =>
    exact two_source incompatibleZip (by decide) (nat?_source h.1) (nat?_source h.2)
  | nonLinearProduct rule => exact one_source nonLinearProduct rfl
  | constantTerm name x => exact two_source constantTerm (by decide) rfl (float?_source h)
  | tooManyAlternatives count limit =>
    exact two_source tooManyAlternatives (by decide) (nat?_source h.1) (nat?_source h.2)
  | invalidPattern pattern reason => exact two_source invalidPattern (by decide) rfl rfl
  | unknownCombination name => exact one_source unknownCombination rfl
  | missingBaseResult name => exact one_source missingBaseResult rfl
  | file operation path reason =>
    have hfields : (source (.object (file operation path reason).parts.2)).fields?
        ["operation", "path", "reason"] =
          some [some (source (.string operation)), some (source (.string path)),
            some (source (.string reason))] := by
      simp [parts, fields?_source, List.lookup]
    generalize source (.object (file operation path reason).parts.2) = s at hfields ⊢
    change (s.fields? ["operation", "path", "reason"]).bind _ = _
    rw [hfields]
    rfl
  | serialization reason => exact one_source serialization rfl
  | versionMismatch found expected => exact two_source versionMismatch (by decide) rfl rfl

theorem finite_parts (f : Failure) : ∀ m ∈ f.parts.2, m.2.Finite := by
  have hpath (names : List String) : (Json.array (names.map .string)).Finite := by
    apply Finite.array
    simp
  cases f <;> simp [parts, hpath]

theorem Fits.restores {f : Failure} (h : f.Fits) : Restores outer f := by
  have hdetails : (Json.object f.parts.2).Finite := .object f.finite_parts
  constructor
  · apply Finite.object
    simp [hdetails]
  · have hobject : source (toJson f) = source (.object
        [("type", .string f.parts.1), ("details", .object f.parts.2)]) := rfl
    have hfields : (source (toJson f)).fields? ["type", "details"] =
        some [some (source (.string f.parts.1)), some (source (.object f.parts.2))] := by
      rw [hobject]
      simp [fields?_source, List.lookup]
    have hmembers : (source (toJson f)).members = some [("type", source (.string f.parts.1)),
        ("details", source (.object f.parts.2))] := by
      rw [hobject, members_source]
      rfl
    rw [hobject, source] at hfields hmembers ⊢
    rw [Form.ofSource?]
    simp only [instFormFailure, hfields, hmembers, Option.bind_eq_bind, Option.bind_some]
    -- the kind comes first, so it is known whose details are read
    rw [List.find?_cons_of_pos (by simp)]
    change (ofDetails? f.parts.1 (source (.object f.parts.2))) = some f
    exact h.ofDetails?_parts

end Failure

/-- Every document is read back from its compact and from its pretty text. -/
theorem survives_json :
    (∀ c : LoadCase, c.Fits → Survives c) ∧ (∀ t : Term, t.Fits → Survives t) ∧
    (∀ c : Combination, c.Fits → Survives c) ∧ (∀ o : Options, o.Fits → Survives o) ∧
    (∀ a : Attachment, a.Fits → Survives a) ∧ (∀ s : Settings, s.Fits → Survives s) ∧
    (∀ e : Envelope, Extremes.Fits id e → Survives e) ∧
    (∀ g : Governing, Extremes.Fits Prod.snd g → Survives g) ∧
    (∀ s : RuleSet, s.Fits → Survives s) ∧ (∀ f : Failure, f.Fits → Survives f) :=
  ⟨fun _ h => h.restores.survives, fun _ h => h.restores.survives,
    fun _ h => (h.restores (by decide)).survives, fun _ h => (h.restores (by decide)).survives,
    fun _ h => (h.restores (by decide)).survives, fun _ h => h.restores.survives,
    fun _ h => h.restores_envelope.survives, fun _ h => h.restores_governing.survives,
    fun _ h => (h.restores (by decide)).survives, fun _ h => h.restores.survives⟩

/-- No limit stays no limit, and options that are empty are not options that are absent. -/
theorem survives_json_of_absent_fields :
    Survives (LoadCase.single "g" 1.5) ∧ Survives (⟨"g", 1.5⟩ : Term) ∧
    Survives (⟨"C", [.single "g" 1.5], none⟩ : Combination) ∧
    Survives (⟨"C", [], some .empty⟩ : Combination) ∧
    Survives (Options.empty.set "a" (.array [.object [("b", .number (.real 1.5))], .null])) ∧
    Survives (⟨"&C", .empty⟩ : Attachment) ∧ Survives (⟨none, false⟩ : Settings) ∧
    Survives (⟨⟨1.5, 1⟩, ⟨1.5, 0⟩⟩ : Envelope) ∧
    Survives (⟨⟨1.5, "C", 1⟩, ⟨1.5, "D", 0⟩⟩ : Governing) ∧
    Survives { RuleSet.empty "T" .epoch with settings := ⟨none, true⟩ } ∧
    Survives (Failure.constantTerm "C" 1.5) := by
  have hx : Restored 1.5 := ⟨by decide +kernel, by decide +kernel⟩
  have hentries : (LoadCase.single "g" 1.5).entries = [("g", 1.5)] := by decide +kernel
  have hcase : (LoadCase.single "g" 1.5).Fits := by
    intro e he
    rw [hentries, List.mem_singleton] at he
    rwa [he]
  have hempty : Options.empty.Fits := fun e he => nomatch he
  have hnested : (Options.empty.set "a"
      (.array [.object [("b", .number (.real 1.5))], .null])).Fits := by
    intro e he
    obtain rfl := List.mem_singleton.mp he
    apply Storable.array
    intro y hy
    obtain rfl | hy := List.mem_cons.mp hy
    · apply Storable.object (List.pairwise_singleton _ _)
      intro m hm
      obtain rfl := List.mem_singleton.mp hm
      exact .real hx
    · obtain rfl := List.mem_singleton.mp hy
      exact .null
  have hplain : (⟨"C", [.single "g" 1.5], none⟩ : Combination).Fits :=
    ⟨fun a ha => List.mem_singleton.mp ha ▸ hcase, fun o ho => (nomatch ho)⟩
  have hbare : (⟨"C", [], some .empty⟩ : Combination).Fits := by
    refine ⟨fun a ha => (nomatch ha), ?_⟩
    rintro o ⟨⟩
    exact hempty
  have hnow : Timestamp.epoch.Fits := ⟨by decide, by decide, by decide⟩
  obtain ⟨loadCase, term, combination, options, attachment, settings, envelope, governing, ruleSet,
    failure⟩ := survives_json
  exact ⟨loadCase _ hcase, term _ hx, combination _ hplain, combination _ hbare, options _ hnested,
    attachment _ hempty, settings _ fun n hn => (nomatch hn),
    envelope _ ⟨hx, by decide, hx, by decide⟩, governing _ ⟨hx, by decide, hx, by decide⟩,
    ruleSet _ ⟨⟨hnow, hnow⟩, fun n hn => (nomatch hn), fun a ha => (nomatch ha)⟩, failure _ hx⟩

end DesignLoads
