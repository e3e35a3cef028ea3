import Kyro.Model.Loader

/-!
# The configuration of a model

`src/model/config.rs`: the class of models that a `config.json` announces, and the sizes that it
has for the loader.

`to_lowercase` goes by the tables of Unicode and is a parameter; the keywords are lower-case ASCII.
-/

namespace Kyro

/-- The fields of a `config.json` that the loader reads. -/
structure HfModelConfig where
  modelType : Option String
  architectures : Option (List String)
  hiddenSize : Option ℕ
  intermediateSize : Option ℕ
  numHiddenLayers : Option ℕ
  numAttentionHeads : Option ℕ
  numKeyValueHeads : Option ℕ
  vocabSize : Option ℕ
  deriving DecidableEq, Repr

/-- `value.contains(keyword)` -/
def containsStr (value keyword : String) : Bool := decide (keyword.toList <:+: value.toList)

namespace ModelArchitecture

/-- The words that announce a class. -/
def keywords : ModelArchitecture → List String
  | decoderOnly => ["llama", "qwen", "gemma", "gpt", "bloom", "gptj"]
  | mixtureOfExperts => ["moe", "mixtral", "deepseek", "gpt-oss"]
  | hybridAttentionStateSpace => ["mamba", "qwen3.5", "state_space", "ssm", "hybrid", "s4"]
  | multiModal => ["llava", "qwen-vl", "pixtral", "vision", "multimodal", "vision-language"]
  | embeddingRetrieval =>
    ["e5", "mistral", "gte", "colbert", "embedding", "retrieval", "sbert"]
  | rewardClassification => ["reward", "math", "classification", "qa", "scoring"]
  | unknown => []

end ModelArchitecture

namespace HfModelConfig

open ModelArchitecture (keywords)

variable (toLowercase : String → String) (config : HfModelConfig)

/-- The model type and the architectures, in lower case. -/
def values : List String :=
  (config.modelType.toList ++ config.architectures.getD []).map toLowercase

def containsAny (keywords : List String) : Bool :=
  (config.values toLowercase).any fun value => keywords.any (containsStr value)

def inferArchitecture : ModelArchitecture :=
  if config.containsAny toLowercase (keywords .decoderOnly) then .decoderOnly
  else if config.containsAny toLowercase (keywords .mixtureOfExperts) then .mixtureOfExperts
  else if config.containsAny toLowercase (keywords .hybridAttentionStateSpace) then
    .hybridAttentionStateSpace
  else if config.containsAny toLowercase (keywords .multiModal) then .multiModal
  else if config.containsAny toLowercase (keywords .embeddingRetrieval) then .embeddingRetrieval
  else if config.containsAny toLowercase (keywords .rewardClassification) then
    .rewardClassification
  else .unknown

def toLlamaConfig : Option LlamaConfig := do
  let hiddenSize ← config.hiddenSize
  let intermediateSize ← config.intermediateSize
  let numHiddenLayers ← config.numHiddenLayers
  let numAttentionHeads ← config.numAttentionHeads
  let numKeyValueHeads := config.numKeyValueHeads.getD numAttentionHeads
  let vocabSize ← config.vocabSize
  return { hiddenSize, intermediateSize, numHiddenLayers, numAttentionHeads, numKeyValueHeads
           vocabSize }

end HfModelConfig

/-- `ModelLoader::new`, for what it finds in the model directory unless the path is that of a GGUF
file. -/
def Loader.ModelLoader.new (toLowercase : String → String) (isGguf : Bool)
    (hfConfig : Except LoadError HfModelConfig) : Except LoadError Loader.ModelLoader :=
  if isGguf then .ok { config := none, hfArchitecture := .unknown, isGguf := true }
  else do
    let hfConfig ← hfConfig
    return { config := hfConfig.toLlamaConfig
             hfArchitecture := hfConfig.inferArchitecture toLowercase
             isGguf := false }

end Kyro
