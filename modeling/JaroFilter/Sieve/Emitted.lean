import JaroFilter.Sieve.Script

/-!
# The generated script read back

What `jf_emit_text` writes is a sequence of pieces; read back, each rule is one
command of its stage block, and running the script takes the first rule that
holds, as the classifier does.
-/

namespace JaroFilter

open Lib

/-! ### The script as pieces -/

def space : Piece := .blank 32

def casemap : Bytes := cstr "i;ascii-casemap"

def actionPieces (p : Profile) (mailbox : Bytes) : List Piece :=
  [.word (cstr "fileinto"), space] ++
    (if p.create then [.word (cstr ":create"), space] else []) ++ [.string mailbox, .punct 59]

def fieldNames (fields : ℕ) : List Bytes :=
  if fields = 1 then [cstr "From"]
  else if fields = 3 then [cstr "From", cstr "Sender"]
  else if fields = 12 then [cstr "To", cstr "Cc"]
  else if fields = 2 then [cstr "Sender"]
  else [cstr "X-Spam-Flag"]

/-- A string on its own, several in brackets. -/
def stringsPieces : List Bytes → List Piece
  | [s] => [.string s]
  | ss => .punct 91 :: (ss.map Piece.string).intersperse (.punct 44) ++ [.punct 93]

def isHeaderKind (k : Kind) : Bool := k == .senderContains || k == .spamIs

/-- The part and match type each kind is exported with. -/
def kindPart : Kind → Option Part
  | .address => some .all
  | .ere => some .all
  | .domainApex => some .domain
  | .domainSubdomains => some .domain
  | _ => none

def kindMatch : Kind → MatchType
  | .ere => .regex
  | .domainSubdomains => .matches
  | .senderContains => .contains
  | _ => .is

def partWord : Part → Bytes
  | .all => cstr ":all"
  | .domain => cstr ":domain"

def matchWord : MatchType → Bytes
  | .is => cstr ":is"
  | .matches => cstr ":matches"
  | .regex => cstr ":regex"
  | .contains => cstr ":contains"

def testPieces (r : Rule) : List Piece :=
  [.word (if isHeaderKind r.kind then cstr "header" else cstr "address"), space] ++
    ((kindPart r.kind).toList.flatMap fun p => [.word (partWord p), space]) ++
    [.word (matchWord (kindMatch r.kind)), space, .word (cstr ":comparator"), space,
      .string casemap, space] ++ stringsPieces (fieldNames r.fields) ++ [space]

def rulePieces (p : Profile) (item : Rule × Bytes) : List Piece :=
  [space, space, .word (cstr "if"), space] ++ testPieces item.1 ++
    [.string item.1.predicate, space, .punct 123, space] ++ actionPieces p item.2 ++
    [space, .word (cstr "stop"), .punct 59, space, .punct 125, .blank 10]

def stagePieces (p : Profile) (items : List (Rule × Bytes)) : List Piece :=
  [.word (cstr "if"), space, .word (cstr "true"), space, .punct 123, .blank 10] ++
    items.flatMap (rulePieces p) ++ [.punct 125, .blank 10]

def requireNames (p : Profile) (rules : List Rule) : List Bytes :=
  [cstr "fileinto"] ++ (if p.create then [cstr "mailbox"] else []) ++
    (if rules.any (fun r => r.kind == .ere) && p.regex then [cstr "regex"] else [])

def requirePieces (p : Profile) (rules : List Rule) : List Piece :=
  [.word (cstr "require"), space, .punct 91] ++
    ((requireNames p rules).map Piece.string).intersperse (.punct 44) ++
    [.punct 93, .punct 59, .blank 10]

def scriptPieces (p : Profile) (rules : List Rule) (blocks : List (List (Rule × Bytes)))
    (mailbox : Bytes) : List Piece :=
  requirePieces p rules ++ blocks.flatMap (stagePieces p) ++ actionPieces p mailbox ++ [.blank 10]

/-! ### The emitter writes these pieces -/

theorem renderPieces_append (ps qs : List Piece) :
    renderPieces (ps ++ qs) = renderPieces ps ++ renderPieces qs :=
  List.flatMap_append

theorem actionText_eq (p : Profile) (mailbox : Bytes) :
    actionText p mailbox = renderPieces (actionPieces p mailbox) := by
  have hc : cstr "fileinto :create " = cstr "fileinto" ++ [32] ++ cstr ":create" ++ [32] := by decide
  have hn : cstr "fileinto " = cstr "fileinto" ++ [32] := by decide
  have hs : cstr ";" = [59] := by decide
  cases hp : p.create <;>
    simp [actionText, actionPieces, renderPieces, Piece.text, space, hp, hc, hn, hs]

theorem testText_eq {r : Rule} {t : Bytes} (h : testText r = .ok t)
    (hp : (r.stage, r.fields) ∈ placements r.kind) (hk : r.kind ≠ .always) :
    t = renderPieces (testPieces r) := by
  have hcases : (r.kind = .senderContains ∧ r.fields = 2) ∨ (r.kind = .spamIs ∧ r.fields = 16) ∨
      ((r.kind = .address ∨ r.kind = .domainApex ∨ r.kind = .domainSubdomains ∨ r.kind = .ere) ∧
        (r.fields = 1 ∨ r.fields = 3 ∨ r.fields = 12)) := by
    cases hkind : r.kind <;> rw [hkind] at hp hk <;>
      simp only [placements, List.mem_cons, Prod.mk.injEq, List.not_mem_nil, or_false] at hp <;>
      simp <;> first | omega | exact hk rfl
  rcases hcases with ⟨hkind, hf⟩ | ⟨hkind, hf⟩ | ⟨hkind, hf⟩
  · simp only [testText, hkind, Except.ok.injEq] at h
    rw [← h, testPieces, hkind, hf]
    decide
  · simp only [testText, hkind, Except.ok.injEq] at h
    rw [← h, testPieces, hkind, hf]
    decide
  · rcases hkind with hkind | hkind | hkind | hkind <;> rcases hf with hf | hf | hf <;>
      simp only [testText, hkind, hf, fieldsText] at h <;>
      cases h <;> rw [testPieces, hkind, hf] <;> decide

theorem emitAdd_ok {b s b' : Bytes} (h : emitAdd b s = .ok b') : b' = b ++ s := by
  unfold emitAdd at h
  split at h
  · exact (Except.ok.inj h).symm
  · cases h

/-- What the export checks leave of a rule. -/
structure Exported (p : Profile) (r : Rule) : Prop where
  regex : r.kind = .ere → p.regex = true ∧ regexSupported r.predicate = true

theorem checkExport_ok {p : Profile} {i : ℕ} {r : Rule} (h : checkExport p i r = .ok ()) :
    Exported p r := by
  unfold checkExport at h
  split at h
  · cases h
  · rename_i hno
    refine ⟨fun hk => ?_⟩
    simpa [hk] using hno

theorem emitRule_ok {p : Profile} {i : ℕ} {item : Rule × Bytes} {b b' : Bytes}
    (h : emitRule p i item b = .ok b') (hok : RuleOk item.1) (hk : item.1.kind ≠ .always) :
    b' = b ++ renderPieces (rulePieces p item) ∧ Exported p item.1 := by
  obtain ⟨_, hcheck, h⟩ := bind_eq_ok_iff.mp h
  obtain ⟨b1, hb1, h⟩ := bind_eq_ok_iff.mp h
  obtain ⟨test, htest, h⟩ := bind_eq_ok_iff.mp h
  obtain ⟨b2, hb2, h⟩ := bind_eq_ok_iff.mp h
  refine ⟨?_, checkExport_ok hcheck⟩
  have hif : cstr "  if " = [32, 32] ++ cstr "if" ++ [32] := by decide
  have hopen : cstr " \x7b " = [32, 123, 32] := by decide
  have hstop : cstr " stop; \x7d\n" = [32] ++ cstr "stop" ++ [59, 32, 125, 10] := by decide
  rw [emitAdd_ok h, emitAdd_ok hb2, emitAdd_ok hb1, testText_eq htest hok.placed hk, actionText_eq,
    hif, hopen, hstop]
  simp [rulePieces, renderPieces, Piece.text, space]

theorem emitStage_ok {p : Profile} {stage i i' : ℕ} {items rest : List (Rule × Bytes)} {b b' : Bytes}
    (h : emitStage p stage i items b = .ok (i', rest, b')) (hok : ∀ x ∈ items, RuleOk x.1)
    (hs : stage ≠ 8) :
    ∃ seg, items = seg ++ rest ∧ (∀ x ∈ seg, x.1.stage = stage ∧ Exported p x.1) ∧
      b' = b ++ renderPieces (seg.flatMap (rulePieces p)) := by
  induction items generalizing i b with
  | nil =>
    cases h
    exact ⟨[], rfl, by simp, by simp [renderPieces]⟩
  | cons item items ih =>
    simp only [emitStage] at h
    split at h
    · rename_i hstage
      obtain ⟨b1, hb1, h⟩ := bind_eq_ok_iff.mp h
      have hitem := hok item (by simp)
      have hk : item.1.kind ≠ .always := by
        rw [Ne, hitem.always_iff]
        omega
      obtain ⟨hb1, hexp⟩ := emitRule_ok hb1 hitem hk
      obtain ⟨seg, hseg, hall, hb'⟩ := ih h fun x hx => hok x (by simp [hx])
      refine ⟨item :: seg, by rw [hseg]; rfl, ?_, ?_⟩
      · intro x hx
        rcases List.mem_cons.mp hx with rfl | hx
        · exact ⟨hstage, hexp⟩
        · exact hall x hx
      · rw [hb', hb1, List.flatMap_cons, renderPieces_append, List.append_assoc]
    · cases h
      exact ⟨[], rfl, by simp, by simp [renderPieces]⟩

/-- Blocks hold rules of their stage only, and everything in them is exported. -/
def Staged (p : Profile) (stages : List ℕ) (blocks : List (List (Rule × Bytes))) : Prop :=
  List.Forall₂ (fun stage block => ∀ x ∈ block, x.1.stage = stage ∧ Exported p x.1) stages blocks

theorem Staged.exists_stage {p : Profile} {stages : List ℕ} {blocks : List (List (Rule × Bytes))}
    (h : Staged p stages blocks) {block : List (Rule × Bytes)} (hb : block ∈ blocks) :
    ∃ stage ∈ stages, ∀ x ∈ block, x.1.stage = stage ∧ Exported p x.1 := by
  induction h with
  | nil => simp at hb
  | @cons stage head stages blocks hhead _ ih =>
    rcases List.mem_cons.mp hb with rfl | hb
    · exact ⟨stage, by simp, hhead⟩
    · obtain ⟨s, hs, hall⟩ := ih hb
      exact ⟨s, by simp [hs], hall⟩

theorem emitStages_ok {p : Profile} {stages : List ℕ} {i : ℕ} {items rest : List (Rule × Bytes)}
    {b b' : Bytes} (h : emitStages p stages i items b = .ok (rest, b'))
    (hok : ∀ x ∈ items, RuleOk x.1) (hs : 8 ∉ stages) :
    ∃ blocks, items = blocks.flatten ++ rest ∧ Staged p stages blocks ∧
      b' = b ++ renderPieces (blocks.flatMap (stagePieces p)) := by
  induction stages generalizing i items b with
  | nil =>
    cases h
    exact ⟨[], rfl, .nil, by simp [renderPieces]⟩
  | cons stage stages ih =>
    obtain ⟨b1, hb1, h⟩ := bind_eq_ok_iff.mp h
    obtain ⟨⟨i2, items2, b2⟩, hb2, h⟩ := bind_eq_ok_iff.mp h
    obtain ⟨b3, hb3, h⟩ := bind_eq_ok_iff.mp h
    have hne : stage ≠ 8 := fun he => hs (by simp [he])
    obtain ⟨seg, hseg, hall, hb2⟩ := emitStage_ok hb2 hok hne
    have hok2 : ∀ x ∈ items2, RuleOk x.1 := fun x hx => hok x (by rw [hseg]; simp [hx])
    obtain ⟨blocks, hblocks, hstaged, hb'⟩ := ih h hok2 fun he => hs (by simp [he])
    refine ⟨seg :: blocks, ?_, .cons hall hstaged, ?_⟩
    · rw [hseg, hblocks]
      simp
    · have hopen : cstr "if true \x7b\n" = cstr "if" ++ [32] ++ cstr "true" ++ [32, 123, 10] := by
        decide
      have hclose : cstr "\x7d\n" = [125, 10] := by decide
      rw [hb', emitAdd_ok hb3, hb2, emitAdd_ok hb1, hopen, hclose]
      simp [stagePieces, renderPieces, Piece.text, space]

theorem requireText_eq (p : Profile) (rules : List Rule) :
    requireText p rules = renderPieces (requirePieces p rules) := by
  unfold requireText requirePieces requireNames
  generalize ((rules.any fun r => r.kind == .ere) && p.regex) = c
  cases p.create <;> cases c <;> decide

/-- The shell tables and the script of a successful emission. -/
theorem emitText_ok {p : Profile} {rules : List Rule} {names : List Bytes} {z s : Bytes}
    (h : emitText p rules names = .ok (z, s)) (hok : ∀ r ∈ rules, RuleOk r) :
    ∃ blocks r mailbox, rules.zip names = blocks.flatten ++ [(r, mailbox)] ∧ r.kind = .always ∧
      Staged p [1, 2, 3, 4, 5, 6, 7] blocks ∧ z = zshText rules ∧
      s = renderPieces (scriptPieces p rules blocks mailbox) := by
  obtain ⟨z1, hz, h⟩ := bind_eq_ok_iff.mp h
  obtain ⟨b, hb, h⟩ := bind_eq_ok_iff.mp h
  obtain ⟨⟨rest, b2⟩, hb2, h⟩ := bind_eq_ok_iff.mp h
  have hitems : ∀ x ∈ rules.zip names, RuleOk x.1 := fun x hx => hok x.1 (List.of_mem_zip hx).1
  obtain ⟨blocks, hblocks, hstaged, hb'⟩ := emitStages_ok hb2 hitems (by decide)
  clear hb2
  match rest, h with
  | [(r, mailbox)], h =>
    simp only at h
    split at h
    · rename_i hk
      obtain ⟨b3, hb3, h⟩ := bind_eq_ok_iff.mp h
      cases h
      refine ⟨blocks, r, mailbox, hblocks, hk, hstaged, by simpa using emitAdd_ok hz, ?_⟩
      have hlf : cstr "\n" = [10] := by decide
      rw [emitAdd_ok hb3, hb', emitAdd_ok hb, requireText_eq, actionText_eq, hlf]
      simp [scriptPieces, renderPieces, Piece.text]
    · cases h
  | [], h => cases h
  | _ :: _ :: _, h => cases h

/-! ### Every piece is a token -/

theorem isControl_false_of_ldh {c : Byte} (h : isLdh c = true ∨ c = 46) : isControl c = false := by
  have hall : ∀ c : Byte, isLdh c = true ∨ c = 46 → isControl c = false := by decide +kernel
  exact hall c h

theorem domain_text {d : Bytes} (h : validDomain d = true) : ∀ c ∈ d, isControl c = false :=
  fun c hc => isControl_false_of_ldh (validDomain_bytes h c hc)

theorem canonical_text {l d : Bytes} (h : IsMailbox l d) : ∀ c ∈ canonical l d, isControl c = false := by
  have hd := domain_text h.domain
  intro c hc
  unfold canonical at hc
  split at hc
  · simp only [List.cons_append, List.mem_cons, List.mem_append] at hc
    rcases hc with rfl | hc | rfl | rfl | hc
    · decide
    · rcases mem_escape hc with rfl | hc
      · decide
      · exact h.text c hc
    · decide
    · decide
    · exact hd c hc
  · simp only [List.mem_append, List.mem_cons] at hc
    rcases hc with hc | rfl | hc
    · exact h.text c hc
    · decide
    · exact hd c hc

/-- A supported regex is printable ASCII. -/
theorem regexLoop_text {fuel : ℕ} {s : Bytes} (hf : s.length ≤ fuel) (h : regexLoop fuel s = true) :
    ∀ c ∈ s, isControl c = false := by
  have hprint : ∀ c : Byte, ¬ (c < 32 ∨ 126 < c) → isControl c = false := by decide +kernel
  have hesc : ∀ c ∈ escapable, isControl c = false := by decide +kernel
  induction fuel generalizing s with
  | zero =>
    have hs : s = [] := List.length_eq_zero_iff.mp (Nat.le_zero.mp hf)
    simp [hs]
  | succ fuel ih =>
    cases s with
    | nil => simp
    | cons c s =>
      simp only [List.length_cons] at hf
      rw [regexLoop.eq_def] at h
      simp only at h
      split at h
      · cases h
      · rename_i hc
        have hcons : (∀ d ∈ s, isControl d = false) → ∀ d ∈ c :: s, isControl d = false := by
          intro hs d hd
          rcases List.mem_cons.mp hd with rfl | hd
          · exact hprint d hc
          · exact hs d hd
        refine hcons ?_
        split at h
        · rename_i hend
          simp [hend.2]
        · split at h
          · split at h
            · cases h
            · rename_i e s
              simp only [List.length_cons] at hf
              split at h
              · rename_i he
                intro d hd
                rcases List.mem_cons.mp hd with rfl | hd
                · exact hesc d (by simpa using he)
                · exact ih (by omega) h d hd
              · cases h
          · split at h
            · rename_i hbracket
              obtain ⟨s', rfl⟩ := hbracket.2
              have hpre : ∀ d ∈ cstr ".]", isControl d = false := by decide +kernel
              have hlen : (cstr ".]").length = 2 := by decide
              have hdrop : (cstr ".]" ++ s').drop 2 = s' := by rw [← hlen, List.drop_left]
              rw [hdrop] at h
              rw [List.length_append, hlen] at hf
              intro d hd
              rcases List.mem_append.mp hd with hd | hd
              · exact hpre d hd
              · exact ih (by omega) h d hd
            · split at h
              · cases h
              · exact ih (by omega) h

theorem regexSupported_text {s : Bytes} (h : regexSupported s = true) :
    ∀ c ∈ s, isControl c = false := by
  simp only [regexSupported] at h
  by_cases hhead : s.head? = some 94
  · simp only [hhead, if_true] at h
    split at h
    · cases h
    · have hloop := regexLoop_text le_rfl h
      cases s with
      | nil => simp
      | cons c s =>
        have hc : c = 94 := by simpa using hhead
        intro d hd
        rcases List.mem_cons.mp hd with rfl | hd
        · rw [hc]
          decide
        · exact hloop d hd
  · simp only [hhead, if_false] at h
    split at h
    · cases h
    · exact regexLoop_text le_rfl h

theorem isStringText_iff {v : Bytes} : isStringText v = true ↔ ∀ c ∈ v, isControl c = false := by
  simp only [isStringText, List.all_eq_true, Bool.not_eq_true']

theorem predicate_text {p : Profile} {r : Rule} (hr : RuleOk r) (he : Exported p r) :
    isStringText r.predicate = true := by
  rw [isStringText_iff]
  have hnormal := hr.normal
  cases hk : r.kind <;> rw [hk] at hnormal
  case address =>
    obtain ⟨_, l, d, hm, _, heq⟩ := normalizeMailbox_eq_some_iff.mp hnormal.1
    rw [heq]
    exact canonical_text hm
  case domainApex => exact domain_text hnormal.1
  case domainSubdomains =>
    obtain ⟨d, heq, hd, _⟩ := hnormal
    have hstar : ∀ c ∈ cstr "*.", isControl c = false := by decide +kernel
    rw [heq]
    intro c hc
    rcases List.mem_append.mp hc with hc | hc
    · exact hstar c hc
    · exact domain_text hd c hc
  case ere => exact regexSupported_text (he.regex hk).2
  case senderContains =>
    have hp : r.predicate = cstr "mailman-bounce" := hnormal
    rw [hp]
    decide +kernel
  case spamIs =>
    have hp : r.predicate = cstr "YES" := hnormal
    rw [hp]
    decide +kernel
  case always =>
    have hp : r.predicate = [] := hnormal
    simp [hp]

/-- Pieces apart from each other that all read back. -/
structure Legible (limit : ℕ) (ps : List Piece) : Prop where
  fits : ∀ p ∈ ps, p.Fits limit
  chain : ps.IsChain Piece.Apart

/-- Ends in something a word may follow. -/
def Closed (ps : List Piece) : Prop := ∀ p ∈ ps.getLast?, ∀ w, p ≠ .word w

theorem Legible.append {limit : ℕ} {ps qs : List Piece} (hp : Legible limit ps)
    (hq : Legible limit qs) (hc : Closed ps) : Legible limit (ps ++ qs) := by
  refine ⟨?_, ?_⟩
  · intro p hmem
    rcases List.mem_append.mp hmem with h | h
    · exact hp.fits p h
    · exact hq.fits p h
  · refine List.isChain_append.mpr ⟨hp.chain, hq.chain, ?_⟩
    intro x hx y _
    cases x with
    | word w => exact absurd rfl (hc _ hx w)
    | _ => cases y <;> trivial

theorem Closed.append {ps qs : List Piece} (hp : Closed ps) (hq : Closed qs) : Closed (ps ++ qs) := by
  intro x hx
  rw [List.getLast?_append] at hx
  cases hl : qs.getLast? with
  | none => exact hp x (by simpa [hl] using hx)
  | some y =>
    have hxy : y = x := by simpa [hl] using hx
    exact hq x (by rw [hl, hxy]; rfl)

theorem Legible.flatMap {α : Type} {limit : ℕ} {f : α → List Piece} {l : List α}
    (h : ∀ x ∈ l, Legible limit (f x) ∧ Closed (f x)) :
    Legible limit (l.flatMap f) ∧ Closed (l.flatMap f) := by
  induction l with
  | nil => exact ⟨⟨by simp, by simp⟩, by simp [Closed]⟩
  | cons x l ih =>
    have hx := h x (by simp)
    have ih := ih fun y hy => h y (by simp [hy])
    rw [List.flatMap_cons]
    exact ⟨hx.1.append ih.1 hx.2, hx.2.append ih.2⟩

/-! ### The script is legible -/

instance (limit : ℕ) (p : Piece) : Decidable (p.Fits limit) :=
  match p with
  | .blank c => inferInstanceAs (Decidable (isSpace c = true))
  | .punct c => inferInstanceAs (Decidable (isPunct c = true))
  | .word s => inferInstanceAs (Decidable (isWordText s = true ∧ s.length ≤ limit))
  | .string s => inferInstanceAs (Decidable (isStringText s = true ∧ s.length ≤ limit))

theorem Piece.Fits.mono {a b : ℕ} (h : a ≤ b) {p : Piece} (hp : p.Fits a) : p.Fits b := by
  cases p with
  | blank c => exact hp
  | punct c => exact hp
  | word s => exact ⟨hp.1, hp.2.trans h⟩
  | string s => exact ⟨hp.1, hp.2.trans h⟩

theorem Legible.mono {a b : ℕ} (h : a ≤ b) {ps : List Piece} (hp : Legible a ps) : Legible b ps :=
  ⟨fun p hmem => (hp.fits p hmem).mono h, hp.chain⟩

/-- The longest fixed word or string of a script. -/
def fixedMax : ℕ := 15

theorem legible_fixed {ps : List Piece} (hf : ∀ p ∈ ps, p.Fits fixedMax)
    (hc : ps.IsChain Piece.Apart) {limit : ℕ} (h : fixedMax ≤ limit) : Legible limit ps :=
  (Legible.mono h ⟨hf, hc⟩)

theorem legible_string {limit : ℕ} {v : Bytes} (hv : isStringText v = true) (hl : v.length ≤ limit) :
    Legible limit [.string v] :=
  ⟨fun p hp => by rw [List.mem_singleton.mp hp]; exact ⟨hv, hl⟩, .singleton _⟩

theorem Closed.of_suffix (ps : List Piece) {qs : List Piece} (hq : Closed qs) (hne : qs ≠ []) :
    Closed (ps ++ qs) := by
  intro x hx
  rw [List.getLast?_append_of_ne_nil _ hne] at hx
  exact hq x hx

theorem actionPieces_legible {limit : ℕ} (h : fixedMax ≤ limit) (p : Profile) {mailbox : Bytes}
    (hv : isStringText mailbox = true) (hl : mailbox.length ≤ limit) :
    Legible limit (actionPieces p mailbox) ∧ Closed (actionPieces p mailbox) := by
  refine ⟨?_, Closed.of_suffix _ (by simp [Closed]) (by simp)⟩
  have hend : Legible limit [.punct 59] := legible_fixed (by decide) (.singleton _) h
  have htail : Legible limit [.string mailbox, .punct 59] :=
    (legible_string hv hl).append hend (by simp [Closed])
  unfold actionPieces
  refine Legible.append ?_ htail ?_
  · cases p.create
    · exact legible_fixed (by decide) (by decide) h
    · exact legible_fixed (by decide) (by decide) h
  · cases p.create <;> simp [Closed, space]

theorem testPieces_legible {limit : ℕ} (h : fixedMax ≤ limit) {r : Rule} :
    Legible limit (testPieces r) ∧ Closed (testPieces r) := by
  refine ⟨?_, Closed.of_suffix _ (by simp [Closed, space]) (by simp)⟩
  have hfields : fieldNames r.fields ∈ [[cstr "From"], [cstr "From", cstr "Sender"],
      [cstr "To", cstr "Cc"], [cstr "Sender"], [cstr "X-Spam-Flag"]] := by
    unfold fieldNames
    split_ifs <;> simp
  unfold testPieces
  generalize fieldNames r.fields = names at hfields
  simp only [List.mem_cons, List.not_mem_nil, or_false] at hfields
  rcases hfields with rfl | rfl | rfl | rfl | rfl <;> cases r.kind <;>
    exact legible_fixed (by decide) (by decide) h

theorem rulePieces_legible {limit : ℕ} (h : fixedMax ≤ limit) {p : Profile} {item : Rule × Bytes}
    (hp : isStringText item.1.predicate = true) (hpl : item.1.predicate.length ≤ limit)
    (hm : isStringText item.2 = true) (hml : item.2.length ≤ limit) :
    Legible limit (rulePieces p item) ∧ Closed (rulePieces p item) := by
  obtain ⟨hact, hactc⟩ := actionPieces_legible h p hm hml
  obtain ⟨htest, htestc⟩ := testPieces_legible h (r := item.1)
  refine ⟨?_, Closed.of_suffix _ (by simp [Closed]) (by simp)⟩
  have hstart : Legible limit [space, space, .word (cstr "if"), space] :=
    legible_fixed (by decide) (by decide) h
  have hopen : Legible limit [space, .punct 123, space] :=
    legible_fixed (by decide) (by decide) h
  have hkey : Legible limit [.string item.1.predicate, space, .punct 123, space] :=
    (legible_string hp hpl).append hopen (by simp [Closed])
  have hend : Legible limit [space, .word (cstr "stop"), .punct 59, space, .punct 125, .blank 10] :=
    legible_fixed (by decide) (by decide) h
  have hstartc : Closed [space, space, .word (cstr "if"), space] := by simp [Closed, space]
  have hkeyc : Closed [.string item.1.predicate, space, .punct 123, space] := by
    simp [Closed, space]
  exact (((hstart.append htest hstartc).append hkey (hstartc.append htestc)).append hact
    ((hstartc.append htestc).append hkeyc)).append hend
    (((hstartc.append htestc).append hkeyc).append hactc)

theorem stagePieces_legible {limit : ℕ} (h : fixedMax ≤ limit) {p : Profile}
    {items : List (Rule × Bytes)}
    (hi : ∀ x ∈ items, isStringText x.1.predicate = true ∧ x.1.predicate.length ≤ limit ∧
      isStringText x.2 = true ∧ x.2.length ≤ limit) :
    Legible limit (stagePieces p items) ∧ Closed (stagePieces p items) := by
  obtain ⟨hrules, hrulesc⟩ := Legible.flatMap fun x hx => rulePieces_legible h (p := p)
    (hi x hx).1 (hi x hx).2.1 (hi x hx).2.2.1 (hi x hx).2.2.2
  have hopen : Legible limit [.word (cstr "if"), space, .word (cstr "true"), space, .punct 123,
      .blank 10] := legible_fixed (by decide) (by decide) h
  have hclose : Legible limit [.punct 125, .blank 10] :=
    legible_fixed (by decide) (by decide) h
  have hopenc : Closed [.word (cstr "if"), space, .word (cstr "true"), space, .punct 123,
      .blank 10] := by simp [Closed]
  exact ⟨(hopen.append hrules hopenc).append hclose (hopenc.append hrulesc),
    Closed.of_suffix _ (by simp [Closed]) (by simp)⟩

theorem requirePieces_legible {limit : ℕ} (h : fixedMax ≤ limit) (p : Profile) (rules : List Rule) :
    Legible limit (requirePieces p rules) ∧ Closed (requirePieces p rules) := by
  refine ⟨?_, Closed.of_suffix _ (by simp [Closed]) (by simp)⟩
  unfold requirePieces requireNames
  generalize ((rules.any fun r => r.kind == .ere) && p.regex) = c
  cases p.create <;> cases c <;> exact legible_fixed (by decide) (by decide) h

theorem scriptPieces_legible {limit : ℕ} (h : fixedMax ≤ limit) {p : Profile} {rules : List Rule}
    {blocks : List (List (Rule × Bytes))} {mailbox : Bytes}
    (hi : ∀ x ∈ blocks.flatten, isStringText x.1.predicate = true ∧ x.1.predicate.length ≤ limit ∧
      isStringText x.2 = true ∧ x.2.length ≤ limit)
    (hm : isStringText mailbox = true) (hml : mailbox.length ≤ limit) :
    Legible limit (scriptPieces p rules blocks mailbox) := by
  obtain ⟨hreq, hreqc⟩ := requirePieces_legible h p rules
  obtain ⟨hblocks, hblocksc⟩ := Legible.flatMap (l := blocks) fun block hb =>
    stagePieces_legible h (p := p) fun x hx => hi x (List.mem_flatten.mpr ⟨block, hb, hx⟩)
  obtain ⟨hact, hactc⟩ := actionPieces_legible h p hm hml
  have hlf : Legible limit [.blank 10] := legible_fixed (by decide) (.singleton _) h
  exact ((hreq.append hblocks hreqc).append hact (hreqc.append hblocksc)).append hlf
    ((hreqc.append hblocksc).append hactc)

theorem length_le_render {ps : List Piece} {p : Piece} (h : p ∈ ps) :
    p.text.length ≤ (renderPieces ps).length := by
  induction ps with
  | nil => simp at h
  | cons q ps ih =>
    simp only [renderPieces, List.flatMap_cons, List.length_append] at ih ⊢
    rcases List.mem_cons.mp h with rfl | h
    · omega
    · have hle := ih h
      omega

theorem escape_length (v : Bytes) : v.length ≤ (escape v).length := by
  induction v with
  | nil => simp
  | cons c v ih =>
    by_cases hc : c = 34 ∨ c = 92
    · rw [escape_cons_special hc]
      simp only [List.length_cons]
      omega
    · rw [escape_cons_plain hc]
      simp only [List.length_cons]
      omega

/-- A quoted string is no longer than the text that holds it. -/
theorem string_length_le {ps : List Piece} {v : Bytes} (h : .string v ∈ ps) :
    v.length ≤ (renderPieces ps).length := by
  have hle := length_le_render h
  have hesc := escape_length v
  simp only [Piece.text, quoteSieve, List.length_append, List.length_cons, List.length_nil] at hle
  omega

end JaroFilter
