import LatteWork.Lib.Fallible
import LatteWork.Store.Sessions

/-!
# Launch configuration

What an agent process is started with, and what must not leave the server: a provider's
credential is replaced wherever a text or an event is about to be stored.
-/

namespace LatteWork

open Fallible

inductive ProviderProtocol where
  | anthropicMessages | openaiChat | openaiResponses
  deriving DecidableEq, Repr, Inhabited

inductive ProviderAuth where
  | none | bearer | apiKey
  deriving DecidableEq, Repr, Inhabited

structure Provider where
  id : String
  name : String
  protocol : ProviderProtocol
  baseUrl : String
  model : String
  models : List String
  modelLabels : List (String × String)
  models1m : List String
  auth : ProviderAuth
  hasCredential : Bool := true
  revision : String := ""
  deriving DecidableEq, Repr, Inhabited

structure ResolvedProvider where
  metadata : Provider
  credential : String
  deriving DecidableEq, Repr, Inhabited

structure ModelSelection where
  model : String
  backendVariant : String
  deriving DecidableEq, Repr, Inhabited

structure LaunchConfig where
  provider : Option ResolvedProvider := none
  model : Option String := none
  traexModel : Option ModelSelection := none
  effort : Option Effort := none
  permissionMode : Option String := none
  deriving DecidableEq, Repr, Inhabited

/-- `same_config`. -/
def sameConfig (a b : LaunchConfig) : Bool :=
  a.model = b.model && a.traexModel = b.traexModel && a.effort = b.effort &&
    a.permissionMode = b.permissionMode &&
    match a.provider, b.provider with
    | none, none => true
    | some a, some b =>
      a.credential = b.credential && a.metadata.baseUrl = b.metadata.baseUrl &&
        a.metadata.protocol = b.metadata.protocol && a.metadata.auth = b.metadata.auth &&
        a.metadata.model = b.metadata.model
    | _, _ => false

/-- `str::replace`, on characters: occurrences from the left, none inside another. The number
counts the characters of an occurrence still to be passed over. -/
def replaceChars (pattern replacement : List Char) : ℕ → List Char → List Char
  | _, [] => []
  | n + 1, _ :: rest => replaceChars pattern replacement n rest
  | 0, c :: rest =>
    if pattern <+: c :: rest then
      replacement ++ replaceChars pattern replacement (pattern.length - 1) rest
    else c :: replaceChars pattern replacement 0 rest

mutual

/-- The `visit` of `redact_event`: every string in a value, its object keys left alone. -/
def Json.mapStrings (f : String → String) : Json → Json
  | .str s => .str (f s)
  | .arr items => .arr (mapItems f items)
  | .obj fields => .obj (mapFields f fields)
  | v => v

def Json.mapItems (f : String → String) : List Json → List Json
  | [] => []
  | v :: rest => v.mapStrings f :: mapItems f rest

def Json.mapFields (f : String → String) : List (String × Json) → List (String × Json)
  | [] => []
  | (k, v) :: rest => (k, v.mapStrings f) :: mapFields f rest

end

namespace LaunchConfig

/-- `redact`. -/
def redact (c : LaunchConfig) (text : String) : String :=
  match c.provider with
  | some p =>
    if p.credential = "" then text
    else String.ofList (replaceChars p.credential.toList "[redacted]".toList 0 text.toList)
  | none => text

/-- `redact_event`. `fromValue` is `serde_json::from_value` on the value of an agent's event. -/
def redactEvent (fromValue : Json → Option AgentEvent) (c : LaunchConfig) (e : AgentEvent) :
    Except String AgentEvent :=
  orError "unknown variant" (fromValue (e.event.toJson.mapStrings c.redact))

/-- `redact_event` on any event, an agent's or one of the server's own. -/
def redactAny (fromValue : Json → Option EventKind) (c : LaunchConfig) (e : EventKind) :
    Except String EventKind :=
  orError "unknown variant" (fromValue (e.toJson.mapStrings c.redact))

end LaunchConfig

example : LaunchConfig.redact { provider := some { metadata := default, credential := "aa" } } "aaab" =
    "[redacted]ab" := by decide

/-- `str::trim`. -/
def trim (s : String) : String :=
  String.ofList (((s.toList.dropWhile isWhitespace).reverse.dropWhile isWhitespace).reverse)

/-- What a provider's address is asked for. -/
structure Url where
  scheme : String
  host : Option String
  username : String
  password : Option String
  query : Option String
  fragment : Option String
  path : String := "/"
  deriving DecidableEq, Repr, Inhabited

/-- `validate_provider`. `parseUrl` is `Url::parse`. -/
def validateProvider (parseUrl : String → Option Url) (provider : Provider) (credential : String) :
    Except String Unit := do
  bailIf (provider.id = "" ∨ 100 < provider.id.utf8ByteSize ∨ provider.name = "" ∨
    80 < provider.name.length ∨ provider.name.toList.any Store.isControl)
    "Provider 名称或 ID 无效（名称最多 80 个字符）"
  bailIf (2048 < provider.baseUrl.utf8ByteSize) "Provider 地址过长"
  let url ← orError "请填写有效的 Provider Base URL" (parseUrl provider.baseUrl)
  bailIf (url.scheme ∉ ["http", "https"] ∨ url.host.isNone ∨ url.username ≠ "" ∨
    url.password.isSome ∨ url.query.isSome ∨ url.fragment.isSome)
    "Base URL 必须是 HTTP(S) 地址，不能包含用户名、密码、查询参数或片段"
  bailIf (256 < provider.models.length) "每个 Provider 最多配置 256 个模型"
  bailIf (∃ model ∈ provider.model :: provider.models, model = "" ∨ 256 < model.utf8ByteSize ∨
    model.toList.head? = some '-' ∨ model.toList.any fun c => isWhitespace c || Store.isControl c)
    "请填写有效的模型 ID（不能包含空白，最多 256 字节）"
  bailIf (257 < provider.modelLabels.length ∨ ∃ label ∈ provider.modelLabels,
    label.1 = "" ∨ 256 < label.1.utf8ByteSize ∨
      (label.1.toList.any fun c => isWhitespace c || Store.isControl c) ∨ 80 < label.2.length ∨
      label.2.toList.any Store.isControl)
    "模型显示名称最多 80 个字符，映射数量最多 257 个"
  bailIf (257 < provider.models1m.length ∨
    (provider.models1m ≠ [] ∧ provider.protocol ≠ .anthropicMessages) ∨
    ¬provider.models1m.Nodup ∨ ∃ model ∈ provider.models1m, 252 < model.utf8ByteSize ∨
      "[1m]".toList <:+ model.toList.map Char.toLower ∨
      model ∉ provider.model :: provider.models)
    "1M 支持须关联 Anthropic 接口中已有的模型，且模型 ID 加后缀后不超过 256 字节"
  if provider.auth = .none then
    bailIf (credential ≠ "") "无需认证的 Provider 不应保存凭据"
  else
    bailIf (trim credential = "" ∨ 8192 < credential.utf8ByteSize ∨ credential.toList.any Store.isControl)
      "凭据不能为空、超过 8192 字节或包含控制字符"

/-- One answer of `questions::validate`. -/
def validateAnswer (questions : List UserQuestion) (answer : QuestionAnswer) : Except String Unit := do
  let question ← orError "回答不属于当前问题" (questions.find? (·.id = answer.questionId))
  bailIf (¬answer.optionIndices.Nodup ∨ ∃ i ∈ answer.optionIndices, question.options.length ≤ i)
    "无效的问题选项"
  let text := trim (answer.text.getD "")
  bailIf (32 * 1024 < text.utf8ByteSize ∨ 8000 < text.length) "自填回答超出长度限制"
  let count := answer.optionIndices.length + if text = "" then 0 else 1
  bailIf (count = 0 ∨ (¬question.multiSelect ∧ count ≠ 1)) "请选择选项或填写回答"

/-- The loop of `questions::validate`, with the questions answered so far. -/
def validateAnswers (questions : List UserQuestion) (seen : List String) :
    List QuestionAnswer → Except String Unit
  | [] => .ok ()
  | answer :: rest => do
    let _ ← orError "回答不属于当前问题" (questions.find? (·.id = answer.questionId))
    bailIf (answer.questionId ∈ seen) "问题回答重复"
    validateAnswer questions answer
    validateAnswers questions (answer.questionId :: seen) rest

/-- `questions::validate`. -/
def validateQuestions (questions : List UserQuestion) (answers : List QuestionAnswer) :
    Except String Unit := do
  bailIf (answers.length ≠ questions.length) "请回答所有问题"
  validateAnswers questions [] answers

end LatteWork
