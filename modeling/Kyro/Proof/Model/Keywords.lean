import Kyro.Lib.Rules
import Kyro.Model.Config

/-!
# Keywords that shadow one another

`infer_architecture` tries one class of models after the other, and a keyword of a later class may
have a keyword of an earlier one as a part. Three do: wherever one of them occurs, the model counts
as a plain decoder. Of all other keywords the most specific one decides.
-/

namespace Kyro

open ModelArchitecture (keywords)

/-- One keyword is part of another. -/
def PartOf (part keyword : String) : Prop := part.toList <:+: keyword.toList

instance : DecidableRel PartOf := fun part keyword =>
  inferInstanceAs (Decidable (part.toList <:+: keyword.toList))

/-- The classes in the order in which they are tried. -/
def tried : List ModelArchitecture :=
  [.decoderOnly, .mixtureOfExperts, .hybridAttentionStateSpace, .multiModal, .embeddingRetrieval,
    .rewardClassification]

/-- The rules of `infer_architecture`. -/
def keywordRules : List (List String × ModelArchitecture) := tried.map fun a => (keywords a, a)

theorem mem_keywordRules {a : ModelArchitecture} {k : String} (hk : k ∈ keywords a) :
    (keywords a, a) ∈ keywordRules := by
  refine List.mem_map_of_mem (f := fun a => (keywords a, a)) ?_
  cases a with
  | unknown => cases hk
  | _ => decide

/-- The keywords with a part in an earlier class. -/
def shadowedKeywords : List String := ["gpt-oss", "qwen3.5", "qwen-vl"]

theorem shadowed_iff {a : ModelArchitecture} {k : String} (hk : k ∈ keywords a) :
    Rules.Shadowed PartOf .unknown keywordRules k a ↔ k ∈ shadowedKeywords := by
  have hall : ∀ rule ∈ keywordRules, ∀ k ∈ rule.1,
      Rules.Shadowed PartOf .unknown keywordRules k rule.2 ↔ k ∈ shadowedKeywords := by
    decide +kernel
  exact hall _ (mem_keywordRules hk) k hk

namespace HfModelConfig

variable {toLowercase : String → String} {config : HfModelConfig} {k : String}
  {a : ModelArchitecture}

/-- A keyword occurs in the model type or in one of the architectures, in whatever case. -/
def occurs (toLowercase : String → String) (config : HfModelConfig) (keyword : String) : Bool :=
  (config.values toLowercase).any fun value => containsStr value keyword

theorem occurs_iff : config.occurs toLowercase k = true ↔
    ∃ value ∈ config.values toLowercase, k.toList <:+: value.toList := by
  simp [occurs, containsStr]

/-- Where a keyword occurs its parts do. -/
theorem occurs_of_partOf {part : String} (hpart : PartOf part k)
    (h : config.occurs toLowercase k = true) : config.occurs toLowercase part = true := by
  obtain ⟨value, hvalue, hinside⟩ := occurs_iff.mp h
  exact occurs_iff.mpr ⟨value, hvalue, List.IsInfix.trans hpart hinside⟩

theorem containsAny_eq (ks : List String) :
    config.containsAny toLowercase ks = ks.any (config.occurs toLowercase) := by
  rw [Bool.eq_iff_iff]
  simp only [containsAny, occurs, List.any_eq_true]
  constructor
  · rintro ⟨value, hvalue, k, hk, hcontains⟩
    exact ⟨k, hk, value, hvalue, hcontains⟩
  · rintro ⟨k, hk, value, hvalue, hcontains⟩
    exact ⟨value, hvalue, k, hk, hcontains⟩

/-- The chain of tests is the list of rules. -/
theorem inferArchitecture_eq (toLowercase : String → String) (config : HfModelConfig) :
    config.inferArchitecture toLowercase =
      Rules.classify (config.occurs toLowercase) .unknown keywordRules := by
  simp only [inferArchitecture, containsAny_eq]
  rfl

/-- A keyword of a class occurs, and every keyword that occurs is part of it. -/
structure MostSpecific (toLowercase : String → String) (config : HfModelConfig) (k : String)
    (a : ModelArchitecture) : Prop where
  listed : k ∈ keywords a
  occurs : config.occurs toLowercase k = true
  others : ∀ b, ∀ j ∈ keywords b, config.occurs toLowercase j = true → PartOf j k

theorem MostSpecific.dominant (h : MostSpecific toLowercase config k a) :
    Rules.Dominant PartOf keywordRules (config.occurs toLowercase) k where
  present := h.occurs
  others rule hrule j hj := by
    obtain ⟨b, -, rfl⟩ := List.mem_map.mp hrule
    exact h.others b j hj

theorem MostSpecific.infer_iff (h : MostSpecific toLowercase config k a) :
    config.inferArchitecture toLowercase = a ↔ k ∉ shadowedKeywords := by
  rw [inferArchitecture_eq, ← shadowed_iff h.listed]
  exact h.dominant.classify_eq_iff fun j hpart => occurs_of_partOf hpart h.occurs

/-- Wherever a shadowed keyword occurs, its class is not inferred. -/
theorem infer_ne_of_shadowed (hk : k ∈ keywords a) (hshadowed : k ∈ shadowedKeywords)
    (hoccurs : config.occurs toLowercase k = true) :
    config.inferArchitecture toLowercase ≠ a := by
  rw [inferArchitecture_eq]
  refine ((shadowed_iff hk).mpr hshadowed).classify_ne List.infix_rfl ?_ (mem_keywordRules hk) hk
    fun j hpart => occurs_of_partOf hpart hoccurs
  decide

/-- The configurations of the source's tests. -/
def hf (modelType : String) (architectures : List String) : HfModelConfig where
  modelType := some modelType
  architectures := some architectures
  hiddenSize := some 4096
  intermediateSize := some 11008
  numHiddenLayers := some 32
  numAttentionHeads := some 32
  numKeyValueHeads := some 32
  vocabSize := some 32000

theorem occurs_hf {modelType : String} (hlower : toLowercase modelType = modelType) :
    (hf modelType []).occurs toLowercase k = true ↔ PartOf k modelType := by
  rw [occurs_iff]
  simp [values, hf, hlower, PartOf]

/-- A keyword by itself is the most specific one. -/
theorem mostSpecific_hf (hk : k ∈ keywords a) (hlower : toLowercase k = k) :
    MostSpecific toLowercase (hf k []) k a where
  listed := hk
  occurs := (occurs_hf hlower).mpr List.infix_rfl
  others _ _ _ h := (occurs_hf hlower).mp h

/-- **The most specific keyword decides unless it is shadowed.** For every configuration, the class
of the most specific keyword is inferred if and only if that keyword is none of the three that have
a keyword of an earlier class as a part. And these three alone are out of reach: for any other
keyword there is a configuration in which it occurs and its class is inferred. -/
theorem most_specific_wins_iff (hlower : ∀ a, ∀ k ∈ keywords a, toLowercase k = k) :
    (∀ config : HfModelConfig,
      (∀ k a, MostSpecific toLowercase config k a → config.inferArchitecture toLowercase = a) ↔
        ∀ k ∈ ["gpt-oss", "qwen3.5", "qwen-vl"], ∀ a, ¬ MostSpecific toLowercase config k a) ∧
    ∀ k a, k ∈ keywords a →
      ((∃ config : HfModelConfig, config.occurs toLowercase k = true ∧
          config.inferArchitecture toLowercase = a) ↔
        k ∉ ["gpt-oss", "qwen3.5", "qwen-vl"]) := by
  refine ⟨fun config => ⟨fun hwins k hk a h => ?_, fun hnone k a h => ?_⟩, fun k a hk => ?_⟩
  · exact h.infer_iff.mp (hwins k a h) hk
  · exact h.infer_iff.mpr fun hshadowed => hnone k hshadowed a h
  · constructor
    · rintro ⟨config, hoccurs, hinfer⟩ hshadowed
      exact infer_ne_of_shadowed hk hshadowed hoccurs hinfer
    · intro hclear
      have h := mostSpecific_hf hk (hlower a k hk)
      exact ⟨hf k [], h.occurs, h.infer_iff.mpr hclear⟩

/-- `to_lowercase` on ASCII. -/
def asciiLowercase (s : String) : String := String.ofList (s.toList.map Char.toLower)

theorem asciiLowercase_keywords (a : ModelArchitecture) :
    ∀ k ∈ keywords a, asciiLowercase k = k := by
  cases a <;> decide +kernel

/-- The only keyword of a mixture of experts decides. -/
theorem most_specific_wins_mixtral :
    (hf "mixtral" ["MixtralForCausalLM"]).inferArchitecture asciiLowercase =
      .mixtureOfExperts := by
  have hspecific : MostSpecific asciiLowercase (hf "mixtral" ["MixtralForCausalLM"]) "mixtral"
      .mixtureOfExperts :=
    ⟨by decide, by decide +kernel, fun b => by cases b <;> decide +kernel⟩
  have habsent : ∀ k ∈ ["gpt-oss", "qwen3.5", "qwen-vl"],
      (hf "mixtral" ["MixtralForCausalLM"]).occurs asciiLowercase k ≠ true := by
    decide +kernel
  exact ((most_specific_wins_iff asciiLowercase_keywords).1 _).mpr
    (fun k hk _ h => habsent k hk h.occurs) _ _ hspecific

/-- A mixture of experts that counts as a plain decoder. -/
theorem most_specific_loses :
    MostSpecific asciiLowercase (hf "gpt-oss" []) "gpt-oss" .mixtureOfExperts ∧
      (hf "gpt-oss" []).inferArchitecture asciiLowercase = .decoderOnly ∧
      ∀ config : HfModelConfig, config.occurs asciiLowercase "gpt-oss" = true →
        config.inferArchitecture asciiLowercase ≠ .mixtureOfExperts := by
  refine ⟨mostSpecific_hf (by decide) (by decide +kernel), by decide +kernel, ?_⟩
  exact fun config hoccurs => infer_ne_of_shadowed (by decide) (by decide) hoccurs

end HfModelConfig
end Kyro
