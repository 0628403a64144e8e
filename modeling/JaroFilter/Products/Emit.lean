import JaroFilter.Products.Profile

/-!
# Text products (`emit.c`)

The shell compatibility tables and the Sieve script. Both are built in a
buffer that refuses to grow past its limit; a failed append ends the emission.
-/

namespace JaroFilter

open Lib

/-! ### Buffers (`product_util.c:28-48`) -/

/-- `jf_bytes_add` with the default limit, as the text emitter reports it. -/
def emitAdd (b s : Bytes) : Except Failure Bytes :=
  if b.length ≤ cacheMax ∧ s.length ≤ cacheMax - b.length then .ok (b ++ s)
  else .error (productError .eMemory 0 (cstr "text output allocation/size limit"))

/-! ### Quoting -/

/-- `quote_zsh` (`emit.c:7`): single quotes, a quote inside as `'\''`. -/
def quoteZsh (s : Bytes) : Bytes :=
  39 :: s.flatMap (fun c => if c = 39 then [39, 92, 39, 39] else [c]) ++ [39]

/-- `quote_sieve` (`emit.c:15`). -/
def quoteSieve (s : Bytes) : Bytes := 34 :: escape s ++ [34]

/-- `jf_kind_name`. -/
def kindName : Kind → Bytes
  | .address => cstr "address"
  | .domainApex => cstr "domain-apex"
  | .domainSubdomains => cstr "domain-subdomains"
  | .ere => cstr "ere"
  | .senderContains => cstr "sender-contains"
  | .spamIs => cstr "spam-is"
  | .always => cstr "always"

/-! ### Shell tables -/

def zshHeader : Bytes :=
  cstr "# Jaromail native filter compatibility v1\n" ++
    cstr "unset filter_from filter_to filter_own filter_whitelist filter_blacklist " ++
    cstr "filter_rule_ids filter_rule_kinds filter_rule_patterns filter_rule_destinations " ++
    cstr "filter_rule_stages filter_rule_masks\n" ++
    cstr "typeset -gA filter_from filter_to\n" ++
    cstr "typeset -ga filter_own filter_whitelist filter_blacklist filter_rule_ids " ++
    cstr "filter_rule_kinds filter_rule_patterns filter_rule_destinations filter_rule_stages " ++
    cstr "filter_rule_masks\n" ++
    cstr "filter_from=()\nfilter_to=()\nfilter_own=()\nfilter_whitelist=()\nfilter_blacklist=()\n"

/-- The line of a rule in the historical arrays (`emit.c:50-60`). -/
def zshRule (r : Rule) : Bytes :=
  if r.kind = .ere then
    cstr (if r.stage = 3 then "filter_from+=(" else "filter_to+=(") ++ quoteZsh r.predicate ++
      cstr " " ++ quoteZsh r.localDir ++ cstr ")\n"
  else if r.stage = 1 then cstr "filter_blacklist+=(" ++ quoteZsh r.predicate ++ cstr ")\n"
  else if r.stage = 5 ∧ r.kind = .address then
    cstr "filter_whitelist+=(" ++ quoteZsh r.predicate ++ cstr ")\n"
  else if r.stage = 7 then cstr "filter_own+=(" ++ quoteZsh r.predicate ++ cstr ")\n"
  else []

/-- The six columns of the rule table (`emit.c:34`). -/
def zshColumns : List (String × (Rule → Bytes)) := [
  ("ids", fun r => r.id), ("kinds", fun r => kindName r.kind), ("patterns", fun r => r.predicate),
  ("destinations", fun r => r.localDir), ("stages", fun r => decimalText r.stage),
  ("masks", fun r => decimalText r.fields)]

/-- `zsh` (`emit.c:32`). -/
def zshText (rules : List Rule) : Bytes :=
  zshHeader ++ rules.flatMap zshRule ++ zshColumns.flatMap fun column =>
    cstr "filter_rule_" ++ cstr column.1 ++ cstr "=(" ++
      rules.flatMap (fun r => cstr " " ++ quoteZsh (column.2 r)) ++ cstr " )\n"

/-! ### The Sieve script -/

/-- `action` (`emit.c:76`). -/
def actionText (p : Profile) (mailbox : Bytes) : Bytes :=
  cstr (if p.create then "fileinto :create " else "fileinto ") ++ quoteSieve mailbox ++ cstr ";"

/-- The header list of an address test; only three masks have one. -/
def fieldsText (fields : ℕ) : Option Bytes :=
  if fields = 1 then some (cstr "\"From\"")
  else if fields = 3 then some (cstr "[\"From\",\"Sender\"]")
  else if fields = 12 then some (cstr "[\"To\",\"Cc\"]")
  else none

/-- The test of a rule up to its key (`emit.c:102-112`). -/
def testText (r : Rule) : Except Failure Bytes :=
  match r.kind with
  | .senderContains =>
    .ok (cstr "header :contains :comparator \"i;ascii-casemap\" \"Sender\" ")
  | .spamIs => .ok (cstr "header :is :comparator \"i;ascii-casemap\" \"X-Spam-Flag\" ")
  | kind =>
    match fieldsText r.fields with
    | none => .error (productError .eRule r.line (cstr "invalid address field mask"))
    | some fields =>
      let test := match kind with
        | .ere => "address :all :regex "
        | .address => "address :all :is "
        | .domainApex => "address :domain :is "
        | _ => "address :domain :matches "
      .ok (cstr test ++ cstr ":comparator \"i;ascii-casemap\" " ++ fields ++ cstr " ")

/-- The export check of a legacy regex (`emit.c:95-101`). -/
def checkExport (p : Profile) (i : ℕ) (r : Rule) : Except Failure Unit :=
  if r.kind = .ere ∧ (!p.regex ∨ regexSupported r.predicate = false) then
    .error ⟨4, ⟨.eRegexExport, some i, r.line, (cstr (if p.regex then
      "ERE outside qualified ASCII concatenation subset; migrate to typed address/domain rules"
      else
        "core-v1 cannot export legacy ERE; migrate to typed address/domain rules or select qualified profile")).take 159⟩⟩
  else .ok ()

/-- One rule of a stage block, with its mailbox (`emit.c:92-116`). -/
def emitRule (p : Profile) (i : ℕ) (item : Rule × Bytes) (b : Bytes) : Except Failure Bytes := do
  checkExport p i item.1
  let b ← emitAdd b (cstr "  if ")
  let test ← testText item.1
  let b ← emitAdd b test
  emitAdd b (quoteSieve item.1.predicate ++ cstr " \x7b " ++ actionText p item.2 ++
    cstr " stop; \x7d\n")

/-- The rules of one stage; `i` counts the rules already emitted. -/
def emitStage (p : Profile) (stage : ℕ) :
    ℕ → List (Rule × Bytes) → Bytes → Except Failure (ℕ × List (Rule × Bytes) × Bytes)
  | i, [], b => .ok (i, [], b)
  | i, item :: items, b =>
    if item.1.stage = stage then do
      let b ← emitRule p i item b
      emitStage p stage (i + 1) items b
    else .ok (i, item :: items, b)

/-- The stage blocks (`emit.c:88-119`). -/
def emitStages (p : Profile) :
    List ℕ → ℕ → List (Rule × Bytes) → Bytes → Except Failure (List (Rule × Bytes) × Bytes)
  | [], _, items, b => .ok (items, b)
  | stage :: stages, i, items, b => do
    let b ← emitAdd b (cstr "if true \x7b\n")
    let (i, items, b) ← emitStage p stage i items b
    let b ← emitAdd b (cstr "\x7d\n")
    emitStages p stages i items b

def requireText (p : Profile) (rules : List Rule) : Bytes :=
  cstr "require [\"fileinto\"" ++ (if p.create then cstr ",\"mailbox\"" else []) ++
    (if rules.any (fun r => r.kind == .ere) && p.regex then cstr ",\"regex\"" else []) ++ cstr "];\n"

/-- `jf_emit_text` (`emit.c:82`): the shell tables and the script. -/
def emitText (p : Profile) (rules : List Rule) (mailboxes : List Bytes) :
    Except Failure (Bytes × Bytes) := do
  let zsh ← emitAdd [] (zshText rules)
  let b ← emitAdd [] (requireText p rules)
  let (rest, b) ← emitStages p [1, 2, 3, 4, 5, 6, 7] 0 (rules.zip mailboxes) b
  match rest with
  | [(r, mailbox)] =>
    if r.kind = .always then do
      let b ← emitAdd b (actionText p mailbox ++ cstr "\n")
      return (zsh, b)
    else .error (productError .eRule 0 (cstr "missing unique final fallback"))
  | _ => .error (productError .eRule 0 (cstr "missing unique final fallback"))

/-! ### The small policy's products -/

theorem sampleNames_isSome : (mailboxNames sampleProfile samplePolicy.rules).isSome = true := by
  decide

theorem sampleText_isOk : (emitText sampleProfile samplePolicy.rules
    ((mailboxNames sampleProfile samplePolicy.rules).getD [])).isOk = true := by
  decide +kernel

end JaroFilter
