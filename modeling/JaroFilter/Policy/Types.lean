import JaroFilter.Lib.Bytes

/-!
# Data model of the policy core (`policy.h`, `policy_internal.h`)

Sources, rules, parsed messages and diagnostics, with the source's limits.
Strings are NUL-free byte lists; allocation is assumed to succeed, so the
resource status 3 stands only for the explicit size limits.
-/

namespace JaroFilter

open Lib

/-! ### Limits (`policy.h:7-12`) -/

def inputMax : ℕ := 64 * 1024 * 1024
def lineMax : ℕ := 64 * 1024
def ruleMax : ℕ := 100000
def builtinRules : ℕ := 3
def ruleRecordMax : ℕ := ruleMax + builtinRules
def headersMax : ℕ := 1024 * 1024

/-! ### Enumerations -/

inductive SourceKind where
  | filters | account | aliases | known | blacklist
  deriving DecidableEq, Repr

/-- The enumerator's value, in the order of `enum jf_source_kind`. -/
def SourceKind.code : SourceKind → ℕ
  | .filters => 0
  | .account => 1
  | .aliases => 2
  | .known => 3
  | .blacklist => 4

inductive Kind where
  | address | domainApex | domainSubdomains | ere | senderContains | spamIs | always
  deriving DecidableEq, Repr

/-- The enumerator's value, in the order of `enum jf_kind`. -/
def Kind.code : Kind → ℕ
  | .address => 0
  | .domainApex => 1
  | .domainSubdomains => 2
  | .ere => 3
  | .senderContains => 4
  | .spamIs => 5
  | .always => 6

theorem Kind.code_injective : Function.Injective Kind.code := by
  intro a b h
  cases a <;> cases b <;> simp [Kind.code] at h ⊢

/-! Field mask bits (`enum jf_field`). -/

def fieldFrom : ℕ := 1
def fieldSender : ℕ := 2
def fieldTo : ℕ := 4
def fieldCc : ℕ := 8
def fieldSpam : ℕ := 16

/-! ### Diagnostics -/

/-- The stable error codes of the modelled functions. -/
inductive Code where
  | eMemory | eArgument | eInputLimit | eLineLimit | eUtf8 | eFields | eQuote | eNul | eToken
  | eSelector | ePredicate | eAction | eDestination | eDomain | eAddress | eRuleLimit | eRegex
  | eMessageLimit | eMessageText | eMessageAddress | eMessageField | eMessageHeader
  | eMessageTruncated | eRegexExec | eProfile | eCapability | eRegexQualification
  | eRegexExport | eRule | eMailboxMapping | eDependency | eCache | eSieveImport
  deriving DecidableEq, Repr

/-- `struct jf_error`; `source` is `none` for `SIZE_MAX`. -/
structure Error where
  code : Code
  source : Option ℕ
  line : ℕ
  detail : Bytes
  deriving DecidableEq, Repr

/-- A nonzero return: the status and the diagnostic left behind. -/
structure Failure where
  rc : ℕ
  error : Error
  deriving DecidableEq, Repr

/-- What a helper reports before its caller adds source and line. -/
structure Fault where
  code : Code
  detail : Bytes
  deriving DecidableEq, Repr

def fault (code : Code) (detail : String) : Fault := ⟨code, cstr detail⟩

/-- `fail` (`policy.c:14`): status 3 for `E_MEMORY`, 4 otherwise; the detail
buffer keeps 159 bytes. -/
def Fault.fail (f : Fault) (source : Option ℕ) (line : ℕ) : Failure :=
  ⟨if f.code = .eMemory then 3 else 4, ⟨f.code, source, line, f.detail.take 159⟩⟩

/-! ### Policy data -/

/-- `struct jf_source`: `identity` and `path` are C strings, `data` any bytes. -/
structure Source where
  kind : SourceKind
  identity : Bytes
  path : Bytes
  data : Bytes
  identity_nul : 0 ∉ identity := by decide
  path_nul : 0 ∉ path := by decide
  deriving DecidableEq, Repr

/-- `struct jf_rule`. -/
structure Rule where
  kind : Kind
  stage : ℕ
  fields : ℕ
  selector : Bytes
  predicate : Bytes
  action : Bytes
  logical : Bytes
  localDir : Bytes
  sieve : Bytes
  source : Bytes
  sourceIdentity : Bytes
  line : ℕ
  occurrence : ℕ
  id : Bytes
  deriving DecidableEq, Repr

/-- `struct jf_mailbox`: one extracted mailbox with its header field. -/
structure Mailbox where
  field : ℕ
  value : Bytes
  deriving DecidableEq, Repr

/-- `struct jf_message`: the parsed headers the classifier reads. -/
structure Message where
  addresses : List Mailbox
  senders : List Bytes
  spamFlags : List Bytes
  deriving DecidableEq, Repr

/-- Result of `regexec` on a compiled pattern. -/
inductive MatchResult where
  | found | notFound | failed
  deriving DecidableEq, Repr

/-- A `regcomp` failure: `space` for `REG_ESPACE`, with the `regerror` text. -/
structure CompileError where
  space : Bool
  text : Bytes
  deriving DecidableEq, Repr

/-- The C library's POSIX regular expressions (extended, case-insensitive,
C locale): compilation depends on the pattern only, execution on the pattern
and the subject. -/
structure Posix where
  regcomp : Bytes → Option CompileError
  regexec : Bytes → Bytes → MatchResult

end JaroFilter
