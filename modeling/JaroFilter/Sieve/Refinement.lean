import JaroFilter.Sieve.Emitted

/-!
# The generated script refines the classifier

Reading the generated script gives one command for each rule, and running it
files every message into the mailbox of the classifier's winner.
-/

namespace JaroFilter

open Lib

/-! ### Reading the pieces back -/

/-- The command a rule is exported as. -/
def commandOf (p : Profile) (item : Rule × Bytes) : Command where
  test := {
    address := !isHeaderKind item.1.kind
    tags := ⟨kindPart item.1.kind, some (kindMatch item.1.kind), some casemap⟩
    fields := fieldNames item.1.fields
    keys := [item.1.predicate] }
  action := ⟨p.create, item.2⟩

@[simp] theorem pieceTokens_nil : pieceTokens [] = [] := rfl

@[simp] theorem pieceTokens_blank (c : Byte) (ps : List Piece) :
    pieceTokens (.blank c :: ps) = pieceTokens ps := rfl

@[simp] theorem pieceTokens_space (ps : List Piece) : pieceTokens (space :: ps) = pieceTokens ps := rfl

@[simp] theorem pieceTokens_punct (c : Byte) (ps : List Piece) :
    pieceTokens (.punct c :: ps) = .punct c :: pieceTokens ps := rfl

@[simp] theorem pieceTokens_word (w : Bytes) (ps : List Piece) :
    pieceTokens (.word w :: ps) = .word w :: pieceTokens ps := rfl

@[simp] theorem pieceTokens_string (v : Bytes) (ps : List Piece) :
    pieceTokens (.string v :: ps) = .string v :: pieceTokens ps := rfl

@[simp] theorem pieceTokens_append (ps qs : List Piece) :
    pieceTokens (ps ++ qs) = pieceTokens ps ++ pieceTokens qs :=
  List.filterMap_append

theorem expectWord_cons {w : Bytes} {s : String} (h : Token.isWord (.word w) s = true)
    (ts : List Token) : expectWord s (.word w :: ts) = some ts := by
  simp only [expectWord, h, if_true]

theorem expectWord_string (s : String) (v : Bytes) (ts : List Token) :
    expectWord s (.string v :: ts) = none := rfl

theorem expectWord_punct (s : String) (c : Byte) (ts : List Token) :
    expectWord s (.punct c :: ts) = none := rfl

theorem expect_cons (c : Byte) (ts : List Token) : expect c (.punct c :: ts) = some ts := by
  simp [expect]

theorem readAction_pieces (p : Profile) (mailbox : Bytes) (ts : List Token) :
    readAction (pieceTokens (actionPieces p mailbox) ++ ts) = some (⟨p.create, mailbox⟩, ts) := by
  have hf : Token.isWord (.word (cstr "fileinto")) "fileinto" = true := by decide
  have hc : Token.isWord (.word (cstr ":create")) ":create" = true := by decide
  cases hp : p.create with
  | true =>
    have htokens : pieceTokens (actionPieces p mailbox) ++ ts =
        .word (cstr "fileinto") :: .word (cstr ":create") :: .string mailbox :: .punct 59 :: ts := by
      simp [actionPieces, hp]
    rw [htokens, readAction, expectWord_cons hf]
    simp [expectWord_cons hc, expect_cons]
  | false =>
    have htokens : pieceTokens (actionPieces p mailbox) ++ ts =
        .word (cstr "fileinto") :: .string mailbox :: .punct 59 :: ts := by
      simp [actionPieces, hp]
    rw [htokens, readAction, expectWord_cons hf]
    simp [expectWord_string, expect_cons]

/-- One turn of the tag loop. -/
theorem readTags_cons (tags : Tags) (t : Token) (ts : List Token) :
    readTags tags (t :: ts) =
      if isTag t = false then some (tags, t :: ts)
      else match partOf t, matchTypeOf t with
        | some p, _ => if tags.part = none then readTags { tags with part := some p } ts else none
        | _, some m =>
          if tags.matchType = none then readTags { tags with matchType := some m } ts else none
        | none, none =>
          match ts with
          | .string c :: ts =>
            if t.isWord ":comparator" ∧ tags.comparator = none then
              readTags { tags with comparator := some c } ts
            else none
          | _ => none :=
  readTags.eq_def tags (t :: ts)

theorem readTags_part (tags : Tags) (h : tags.part = none) (p : Part) (ts : List Token) :
    readTags tags (.word (partWord p) :: ts) = readTags { tags with part := some p } ts := by
  have htag : isTag (.word (partWord p)) = true := by cases p <;> decide
  have hpart : partOf (.word (partWord p)) = some p := by cases p <;> decide
  simp [readTags_cons, htag, hpart, h]

theorem readTags_match (tags : Tags) (h : tags.matchType = none) (m : MatchType) (ts : List Token) :
    readTags tags (.word (matchWord m) :: ts) = readTags { tags with matchType := some m } ts := by
  have htag : isTag (.word (matchWord m)) = true := by cases m <;> decide
  have hpart : partOf (.word (matchWord m)) = none := by cases m <;> decide
  have hmatch : matchTypeOf (.word (matchWord m)) = some m := by cases m <;> decide
  simp [readTags_cons, htag, hpart, hmatch, h]

theorem readTags_comparator (tags : Tags) (h : tags.comparator = none) (c : Bytes)
    (ts : List Token) :
    readTags tags (.word (cstr ":comparator") :: .string c :: ts) =
      readTags { tags with comparator := some c } ts := by
  have htag : isTag (.word (cstr ":comparator")) = true := by decide
  have hpart : partOf (.word (cstr ":comparator")) = none := by decide
  have hmatch : matchTypeOf (.word (cstr ":comparator")) = none := by decide
  have hword : Token.isWord (.word (cstr ":comparator")) ":comparator" = true := by decide
  rw [readTags_cons]
  simp [htag, hpart, hmatch, hword, h]

theorem readTags_stop (tags : Tags) {t : Token} (h : isTag t = false) (ts : List Token) :
    readTags tags (t :: ts) = some (tags, t :: ts) := by
  simp only [readTags_cons, h, if_true]

theorem readItems_pieces {s : Bytes} {ss : List Bytes} (ts : List Token) :
    readItems (pieceTokens (((s :: ss).map Piece.string).intersperse (.punct 44)) ++
      .punct 93 :: ts) = some (s :: ss, ts) := by
  induction ss generalizing s with
  | nil => simp [readItems]
  | cons s' ss ih =>
    have hsplit : pieceTokens (((s :: s' :: ss).map Piece.string).intersperse (.punct 44)) =
        .string s :: .punct 44 ::
          pieceTokens (((s' :: ss).map Piece.string).intersperse (.punct 44)) := by
      simp
    rw [hsplit, List.cons_append, List.cons_append, readItems, if_pos rfl, ih]
    rfl

theorem readStrings_pieces {ss : List Bytes} (hne : ss ≠ []) (ts : List Token) :
    readStrings (pieceTokens (stringsPieces ss) ++ ts) = some (ss, ts) := by
  match ss, hne with
  | [s], _ => rfl
  | s :: s' :: ss, _ =>
    have htokens : pieceTokens (stringsPieces (s :: s' :: ss)) ++ ts = .punct 91 ::
        (pieceTokens (((s :: s' :: ss).map Piece.string).intersperse (.punct 44)) ++
          .punct 93 :: ts) := by
      simp [stringsPieces]
    rw [htokens, readStrings, if_pos rfl, readItems_pieces]

theorem fieldNames_ne_nil (fields : ℕ) : fieldNames fields ≠ [] := by
  unfold fieldNames
  split_ifs <;> simp

/-- The tokens of a string list start with no tag. -/
theorem stringsPieces_start {ss : List Bytes} (hne : ss ≠ []) (ts : List Token) :
    ∃ t ts', pieceTokens (stringsPieces ss) ++ ts = t :: ts' ∧ isTag t = false := by
  match ss, hne with
  | [s], _ => exact ⟨.string s, ts, rfl, rfl⟩
  | s :: s' :: ss, _ => exact ⟨.punct 91, _, rfl, rfl⟩

theorem readTags_kind (k : Kind) {ts : List Token} {t : Token} (h : isTag t = false) :
    readTags ⟨none, none, none⟩
      (((kindPart k).toList.map fun p => Token.word (partWord p)) ++
        .word (matchWord (kindMatch k)) :: .word (cstr ":comparator") :: .string casemap :: t :: ts) =
      some (⟨kindPart k, some (kindMatch k), some casemap⟩, t :: ts) := by
  cases hk : kindPart k with
  | none =>
    simp only [Option.toList_none, List.map_nil, List.nil_append]
    rw [readTags_match _ rfl, readTags_comparator _ rfl, readTags_stop _ h]
  | some p =>
    simp only [Option.toList_some, List.map_cons, List.map_nil, List.singleton_append]
    rw [readTags_part _ rfl, readTags_match _ rfl, readTags_comparator _ rfl, readTags_stop _ h]

theorem readCommand_pieces (p : Profile) (item : Rule × Bytes) (ts : List Token) :
    ∃ ts', pieceTokens (rulePieces p item) ++ ts = .word (cstr "if") :: ts' ∧
      readCommand ts' = some (commandOf p item, ts) := by
  have hne := fieldNames_ne_nil item.1.fields
  have hstop : Token.isWord (.word (cstr "stop")) "stop" = true := by decide
  -- The tokens after the last tag, after the header list and after the key.
  let close : List Token := .word (cstr "stop") :: .punct 59 :: .punct 125 :: ts
  let body : List Token := pieceTokens (actionPieces p item.2) ++ close
  let key : List Token := .string item.1.predicate :: .punct 123 :: body
  have htest : pieceTokens (testPieces item.1) =
      .word (if isHeaderKind item.1.kind then cstr "header" else cstr "address") ::
        (((kindPart item.1.kind).toList.map fun p => Token.word (partWord p)) ++
          .word (matchWord (kindMatch item.1.kind)) :: .word (cstr ":comparator") ::
            .string casemap :: pieceTokens (stringsPieces (fieldNames item.1.fields))) := by
    unfold testPieces
    generalize stringsPieces (fieldNames item.1.fields) = fs
    cases item.1.kind <;> simp [kindPart]
  have htokens : pieceTokens (rulePieces p item) ++ ts = .word (cstr "if") ::
      (pieceTokens (testPieces item.1) ++ key) := by
    simp [rulePieces, key, body, close]
  refine ⟨_, htokens, ?_⟩
  obtain ⟨t, ts', hstart, htag⟩ := stringsPieces_start hne key
  have hname : ∀ ts : List Token, readTestName (.word (if isHeaderKind item.1.kind
      then cstr "header" else cstr "address") :: ts) = some (!isHeaderKind item.1.kind, ts) := by
    have ha : Token.isWord (.word (cstr "address")) "address" = true := by decide
    have hh : Token.isWord (.word (cstr "header")) "header" = true := by decide
    have hn : Token.isWord (.word (cstr "header")) "address" = false := by decide
    intro ts
    cases isHeaderKind item.1.kind <;> simp [readTestName, ha, hh, hn]
  have hfields : readStrings (t :: ts') = some (fieldNames item.1.fields, key) := by
    rw [← hstart]
    exact readStrings_pieces hne key
  have hkeys : readStrings key = some ([item.1.predicate], .punct 123 :: body) := rfl
  have haction : readAction body = some (⟨p.create, item.2⟩, close) := readAction_pieces p item.2 close
  rw [htest, List.cons_append, List.append_assoc, List.cons_append, List.cons_append,
    List.cons_append, hstart]
  simp only [readCommand, hname, readTags_kind _ htag, hfields, hkeys, expect_cons, haction,
    expectWord_cons hstop, close, Option.bind_eq_bind, Option.bind_some, Option.pure_def]
  rfl

theorem readCommands_pieces (p : Profile) (items : List (Rule × Bytes)) {fuel : ℕ}
    (h : items.length < fuel) (c : Byte) (ts : List Token) :
    readCommands fuel (pieceTokens (items.flatMap (rulePieces p)) ++ .punct c :: ts) =
      some (items.map (commandOf p), .punct c :: ts) := by
  have hif : Token.isWord (.word (cstr "if")) "if" = true := by decide
  induction items generalizing fuel with
  | nil =>
    cases fuel with
    | zero => omega
    | succ fuel => simp [readCommands, expectWord_punct]
  | cons item items ih =>
    cases fuel with
    | zero => omega
    | succ fuel =>
      simp only [List.length_cons] at h
      rw [List.flatMap_cons, pieceTokens_append, List.append_assoc]
      obtain ⟨ts', hts', hread⟩ := readCommand_pieces p item
        (pieceTokens (items.flatMap (rulePieces p)) ++ .punct c :: ts)
      have hrest := @ih fuel (by omega)
      rw [hts']
      simp only [readCommands, expectWord_cons hif, hread, hrest, Option.bind_eq_bind,
        Option.bind_some, Option.pure_def, List.map_cons]

theorem readBlocks_pieces (p : Profile) (blocks : List (List (Rule × Bytes))) (fuel : ℕ)
    (h : ∀ b ∈ blocks, b.length < fuel) (ts : List Token) :
    readBlocks fuel blocks.length (pieceTokens (blocks.flatMap (stagePieces p)) ++ ts) =
      some (blocks.map fun b => b.map (commandOf p), ts) := by
  have hif : Token.isWord (.word (cstr "if")) "if" = true := by decide
  have htrue : Token.isWord (.word (cstr "true")) "true" = true := by decide
  induction blocks with
  | nil => rfl
  | cons block blocks ih =>
    have htokens : pieceTokens ((block :: blocks).flatMap (stagePieces p)) ++ ts =
        .word (cstr "if") :: .word (cstr "true") :: .punct 123 ::
          (pieceTokens (block.flatMap (rulePieces p)) ++ .punct 125 ::
            (pieceTokens (blocks.flatMap (stagePieces p)) ++ ts)) := by
      simp [stagePieces]
    rw [htokens, List.length_cons]
    simp only [readBlocks, expectWord_cons hif, expectWord_cons htrue, expect_cons,
      readCommands_pieces p block (h block (by simp)), ih fun b hb => h b (by simp [hb]),
      Option.bind_eq_bind, Option.bind_some, Option.pure_def, List.map_cons]

theorem length_le_ruleTokens (p : Profile) (items : List (Rule × Bytes)) :
    items.length ≤ (pieceTokens (items.flatMap (rulePieces p))).length := by
  induction items with
  | nil => simp
  | cons item items ih =>
    rw [List.flatMap_cons, pieceTokens_append, List.length_append, List.length_cons]
    have hone : 1 ≤ (pieceTokens (rulePieces p item)).length := by simp [rulePieces]
    omega

theorem length_le_blockTokens (p : Profile) {blocks : List (List (Rule × Bytes))}
    {b : List (Rule × Bytes)} (h : b ∈ blocks) :
    b.length ≤ (pieceTokens (blocks.flatMap (stagePieces p))).length := by
  induction blocks with
  | nil => simp at h
  | cons block blocks ih =>
    rw [List.flatMap_cons, pieceTokens_append, List.length_append]
    rcases List.mem_cons.mp h with rfl | h
    · have hle := length_le_ruleTokens p b
      simp only [stagePieces, pieceTokens_append, List.length_append]
      omega
    · have hle := ih h
      omega

/-- The generated script reads back as its blocks. -/
theorem readScript_pieces (p : Profile) (rules : List Rule) {blocks : List (List (Rule × Bytes))}
    (h7 : blocks.length = 7) (mailbox : Bytes) :
    readScript (pieceTokens (scriptPieces p rules blocks mailbox) ++ [.eof]) =
      some ⟨requireNames p rules, blocks.map fun b => b.map (commandOf p), ⟨p.create, mailbox⟩⟩ := by
  have hreq : Token.isWord (.word (cstr "require")) "require" = true := by decide
  obtain ⟨name, names, hnames⟩ : ∃ s ss, requireNames p rules = s :: ss :=
    ⟨cstr "fileinto", _, rfl⟩
  have htokens : pieceTokens (scriptPieces p rules blocks mailbox) ++ [.eof] =
      .word (cstr "require") :: .punct 91 ::
        (pieceTokens (((name :: names).map Piece.string).intersperse (.punct 44)) ++ .punct 93 ::
          .punct 59 :: (pieceTokens (blocks.flatMap (stagePieces p)) ++
            (pieceTokens (actionPieces p mailbox) ++ [.eof]))) := by
    rw [← hnames]
    simp [scriptPieces, requirePieces]
  have hblocks := readBlocks_pieces p blocks ((pieceTokens (blocks.flatMap (stagePieces p)) ++
      (pieceTokens (actionPieces p mailbox) ++ [Token.eof])).length + 1) (by
        intro b hb
        have hle := length_le_blockTokens p hb
        rw [List.length_append]
        omega) (pieceTokens (actionPieces p mailbox) ++ [.eof])
  rw [h7] at hblocks
  rw [htokens]
  simp only [readScript, readRequires, expectWord_cons hreq, readStrings, if_true, readItems_pieces,
    expect_cons, Option.bind_eq_bind, Option.bind_some, Option.pure_def, hblocks, readAction_pieces,
    hnames]

/-! ### What an exported command means -/

theorem glob_literal {p s : Bytes} (h : ∀ c ∈ p, c ≠ 42 ∧ c ≠ 63 ∧ c ≠ 92) :
    glob p s = true ↔ s = p := by
  induction p generalizing s with
  | nil => simp [glob]
  | cons c p ih =>
    obtain ⟨h1, h2, h3⟩ := h c (by simp)
    have ih := ih (s := s.tail) fun d hd => h d (by simp [hd])
    rw [glob.eq_def]
    cases s with
    | nil => simp [h1, h2, h3]
    | cons d s => simpa [h1, h2, h3] using fun _ => ih

/-- `*.domain` matches what ends in `.domain`. -/
theorem glob_subdomains {d s : Bytes} (h : ∀ c ∈ d, c ≠ 42 ∧ c ≠ 63 ∧ c ≠ 92) :
    glob (42 :: 46 :: d) s = true ↔ ∃ x, s = x ++ 46 :: d := by
  have hlit : ∀ c ∈ 46 :: d, c ≠ 42 ∧ c ≠ 63 ∧ c ≠ 92 := by
    intro c hc
    rcases List.mem_cons.mp hc with rfl | hc
    · decide
    · exact h c hc
  rw [glob.eq_def]
  simp only [if_true, List.any_eq_true, List.mem_tails, glob_literal hlit]
  constructor
  · rintro ⟨t, ⟨x, hx⟩, rfl⟩
    exact ⟨x, hx.symm⟩
  · rintro ⟨x, rfl⟩
    exact ⟨_, ⟨x, rfl⟩, rfl⟩

/-- On the fields a message can carry, a header list and a mask agree. -/
theorem fieldNames_iff {fields field : ℕ} (hf : fields ∈ [1, 3, 12])
    (ha : field ∈ [fieldFrom, fieldSender, fieldTo, fieldCc]) :
    (∃ f ∈ fieldNames fields, fieldBit f = field) ↔ fields &&& field ≠ 0 := by
  have hall : ∀ a ∈ [1, 3, 12], ∀ b ∈ [fieldFrom, fieldSender, fieldTo, fieldCc],
      ((∃ f ∈ fieldNames a, fieldBit f = b) ↔ a &&& b ≠ 0) := by decide
  exact hall fields hf field ha

theorem domain_plain {d : Bytes} (h : validDomain d = true) :
    ∀ c ∈ d, c ≠ 42 ∧ c ≠ 63 ∧ c ≠ 92 := by
  have hall : ∀ c : Byte, isLdh c = true ∨ c = 46 → c ≠ 42 ∧ c ≠ 63 ∧ c ≠ 92 := by decide +kernel
  exact fun c hc => hall c (validDomain_bytes h c hc)

/-- An exported address test compares what the rule's kind compares. -/
theorem compares_iff {posix : Posix} {r : Rule} {l d : Bytes} (hn : Normal r.kind r.predicate)
    (hm : IsMailbox l d) (hk : isHeaderKind r.kind = false) (ha : r.kind ≠ .always) :
    Compares posix (kindMatch r.kind) (addressPart (kindPart r.kind) l d) r.predicate ↔
      MatchesMailbox posix r l d := by
  cases hkind : r.kind <;> rw [hkind] at hn hk ha
  case senderContains => exact absurd hk (by decide)
  case spamIs => exact absurd hk (by decide)
  case always => exact absurd rfl ha
  case address =>
    have hfold : foldBytes r.predicate = r.predicate := hn.2.1
    simp [Compares, kindMatch, addressPart, kindPart, MatchesMailbox, hkind, hfold]
  case domainApex =>
    have hfold : foldBytes r.predicate = r.predicate := hn.2
    simp [Compares, kindMatch, addressPart, kindPart, MatchesMailbox, hkind, hfold]
  case ere => simp [Compares, kindMatch, addressPart, kindPart, MatchesMailbox, hkind]
  case domainSubdomains =>
    obtain ⟨x, hx, hvalid, hfold⟩ := hn
    have hstar : cstr "*." = [42, 46] := by decide
    have hp : foldBytes r.predicate = 42 :: 46 :: x := by
      rw [hx, foldBytes_append, hfold, hstar]
      rfl
    have hdrop : r.predicate.drop 2 = x := by
      rw [hx, hstar]
      rfl
    simp only [Compares, kindMatch, addressPart, kindPart, MatchesMailbox, hkind, hp, hdrop, if_true]
    rw [glob_subdomains (domain_plain hvalid), ← mem_suffixes, mem_suffixes_iff_labels hm.fold.domain]

/-- The exported test of a rule is true exactly when the rule holds. -/
theorem testHolds_iff {posix : Posix} {m : Message} {p : Profile} {item : Rule × Bytes}
    (hr : RuleOk item.1) (ha : item.1.kind ≠ .always)
    (hm : ∀ a ∈ m.addresses, a.field ∈ [fieldFrom, fieldSender, fieldTo, fieldCc]) :
    TestHolds posix m (commandOf p item).test ↔ Holds posix m item.1 := by
  obtain ⟨r, mailbox⟩ := item
  have hplaced := hr.placed
  have hnormal := hr.normal
  simp only at hplaced hnormal ha ⊢
  have haddress : isHeaderKind r.kind = false → r.fields ∈ [1, 3, 12] →
      (TestHolds posix m (commandOf p (r, mailbox)).test ↔
        ∃ a ∈ m.addresses, HoldsAt posix r a) := by
    intro hk hfields
    simp only [TestHolds, commandOf, hk, Bool.not_false, if_true, List.mem_singleton, exists_eq_left,
      Option.getD_some, HoldsAt]
    refine exists_congr fun a => and_congr_right fun hmem => ?_
    rw [fieldNames_iff hfields (hm a hmem)]
    refine and_congr_right fun _ => exists_congr fun l => exists_congr fun d => ?_
    exact and_congr_right fun hmail => and_congr_right fun _ => compares_iff hnormal hmail hk ha
  cases hkind : r.kind <;> rw [hkind] at hplaced hnormal ha <;>
    simp only [placements, List.mem_cons, Prod.mk.injEq, List.not_mem_nil, or_false] at hplaced
  case always => exact absurd rfl ha
  case senderContains =>
    have hp : r.predicate = cstr "mailman-bounce" := hnormal
    have hv : headerValues m (cstr "Sender") = m.senders := by
      have hbit : fieldBit (cstr "Sender") = fieldSender := by decide
      simp [headerValues, hbit]
    simp [TestHolds, commandOf, Holds, hkind, hplaced.2, isHeaderKind, fieldNames, kindMatch, Compares,
      hp, hv]
  case spamIs =>
    have hp : r.predicate = cstr "YES" := hnormal
    have hv : headerValues m (cstr "X-Spam-Flag") = m.spamFlags := by
      have hbit : fieldBit (cstr "X-Spam-Flag") = fieldSpam := by decide
      simp [headerValues, hbit, fieldSpam, fieldSender]
    simp [TestHolds, commandOf, Holds, hkind, hplaced.2, isHeaderKind, fieldNames, kindMatch, Compares,
      hp, hv]
  all_goals
    rw [haddress (by rw [hkind]; rfl) (by simp only [List.mem_cons]; omega)]
    simp [Holds, hkind]

/-! ### Running the script -/

theorem FirstMatch.cons_iff {holds : Rule → Prop} {r : Rule} {rules : List Rule} {i : ℕ} :
    FirstMatch holds (r :: rules) i ↔
      (holds r ∧ i = 0) ∨ (¬ holds r ∧ ∃ j, i = j + 1 ∧ FirstMatch holds rules j) := by
  constructor
  · rintro ⟨⟨r', hr', hh⟩, hleast⟩
    by_cases h0 : holds r
    · have hle : i ≤ 0 := hleast ⟨r, rfl, h0⟩
      exact Or.inl ⟨h0, by omega⟩
    · cases i with
      | zero =>
        have hrr : r = r' := by simpa using hr'
        exact absurd (hrr ▸ hh) h0
      | succ j =>
        refine Or.inr ⟨h0, j, rfl, ⟨r', by simpa using hr', hh⟩, ?_⟩
        rintro k ⟨x, hx, hxh⟩
        have hle : j + 1 ≤ k + 1 := hleast ⟨x, by simpa using hx, hxh⟩
        omega
  · rintro (⟨h0, rfl⟩ | ⟨h0, j, rfl, ⟨r', hr', hh⟩, hleast⟩)
    · exact ⟨⟨r, rfl, h0⟩, fun k _ => Nat.zero_le k⟩
    · refine ⟨⟨r', by simpa using hr', hh⟩, ?_⟩
      rintro k ⟨x, hx, hxh⟩
      cases k with
      | zero =>
        have hrx : r = x := by simpa using hx
        exact absurd (hrx ▸ hxh) h0
      | succ k => exact Nat.succ_le_succ (hleast ⟨x, by simpa using hx, hxh⟩)

/-- Commands with the rules' tests file into the mailbox of the first match. -/
theorem runCommands_first {posix : Posix} {m : Message} {p : Profile} {items : List (Rule × Bytes)}
    {last : Rule} (final : Bytes) {i : ℕ}
    (htest : ∀ x ∈ items, TestHolds posix m (commandOf p x).test ↔ Holds posix m x.1)
    (h : FirstMatch (Holds posix m) (items.map Prod.fst ++ [last]) i) :
    (items.map Prod.snd ++ [final])[i]? =
      some (runCommands posix m (items.map (commandOf p)) final) := by
  induction items generalizing i with
  | nil =>
    rcases FirstMatch.cons_iff.mp h with ⟨_, rfl⟩ | ⟨_, j, _, ⟨r, hr, _⟩, _⟩
    · rfl
    · simp at hr
  | cons x items ih =>
    have hx := htest x (by simp)
    simp only [List.map_cons, List.cons_append] at h ⊢
    rcases FirstMatch.cons_iff.mp h with ⟨hholds, rfl⟩ | ⟨hnot, j, rfl, hj⟩
    · simp only [runCommands, if_pos (hx.mpr hholds)]
      rfl
    · simp only [runCommands, if_neg (fun ht => hnot (hx.mp ht))]
      exact ih (fun y hy => htest y (by simp [hy])) hj

theorem mailbox_text {p : Profile} (hp : ProfileOk p) {r : Rule} (hr : RuleOk r) {name : Bytes}
    (h : profileMailbox p r = some name) : isStringText name = true := by
  rw [profileMailbox_eq h, isStringText_iff]
  exact (mailboxName_ok hp _ hr.logical hr.logical_utf8).1.plain

/-- Every string of a rule stands in the script. -/
theorem string_mem_script (p : Profile) (rules : List Rule) {blocks : List (List (Rule × Bytes))}
    (mailbox : Bytes) {x : Rule × Bytes} (hx : x ∈ blocks.flatten) :
    Piece.string x.1.predicate ∈ scriptPieces p rules blocks mailbox ∧
      Piece.string x.2 ∈ scriptPieces p rules blocks mailbox := by
  obtain ⟨block, hb, hx⟩ := List.mem_flatten.mp hx
  have hblock : ∀ q ∈ rulePieces p x, q ∈ scriptPieces p rules blocks mailbox := by
    intro q hq
    have hstage : q ∈ stagePieces p block := by
      have hflat : q ∈ block.flatMap (rulePieces p) := List.mem_flatMap.mpr ⟨x, hx, hq⟩
      simp [stagePieces, hflat]
    have hall : q ∈ blocks.flatMap (stagePieces p) := List.mem_flatMap.mpr ⟨block, hb, hstage⟩
    simp [scriptPieces, hall]
  exact ⟨hblock _ (by simp [rulePieces]), hblock _ (by simp [rulePieces, actionPieces])⟩

/-- The generated text reads back as one command a rule. -/
theorem readText_emitted {posix : Posix} {prof : Profile} (hprof : ProfileOk prof)
    {rules : List Rule} (hres : Resolved posix rules) {names : List Bytes} {z s : Bytes}
    (hnames : mailboxNames prof rules = some names) (hemit : emitText prof rules names = .ok (z, s)) :
    ∃ (blocks : List (List (Rule × Bytes))) (r : Rule) (mailbox : Bytes),
      rules.zip names = blocks.flatten ++ [(r, mailbox)] ∧ blocks.length = 7 ∧
      (∀ x ∈ blocks.flatten, x.1.kind ≠ .always) ∧
      readText s = some ⟨requireNames prof rules, blocks.map fun b => b.map (commandOf prof),
        ⟨prof.create, mailbox⟩⟩ := by
  obtain ⟨blocks, r, mailbox, hzip, hk, hstaged, _, hs⟩ := emitText_ok hemit hres.ok
  have h7 : blocks.length = 7 := hstaged.length_eq.symm
  have hitem : ∀ x ∈ blocks.flatten, RuleOk x.1 ∧ profileMailbox prof x.1 = some x.2 := by
    intro x hx
    have hmem : x ∈ rules.zip names := by rw [hzip]; simp [hx]
    obtain ⟨h1, h2⟩ := mailboxNames_mem hnames hmem
    exact ⟨hres.ok _ h1, h2⟩
  have hlast : RuleOk r ∧ profileMailbox prof r = some mailbox := by
    have hmem : (r, mailbox) ∈ rules.zip names := by rw [hzip]; simp
    obtain ⟨h1, h2⟩ := mailboxNames_mem hnames hmem
    exact ⟨hres.ok _ h1, h2⟩
  have hexp : ∀ x ∈ blocks.flatten, x.1.stage ∈ [1, 2, 3, 4, 5, 6, 7] ∧ Exported prof x.1 := by
    intro x hx
    obtain ⟨block, hb, hx⟩ := List.mem_flatten.mp hx
    obtain ⟨stage, hstage, hall⟩ := hstaged.exists_stage hb
    exact ⟨(hall x hx).1 ▸ hstage, (hall x hx).2⟩
  refine ⟨blocks, r, mailbox, hzip, h7, ?_, ?_⟩
  · intro x hx hkind
    have h8 := (hitem x hx).1.always_iff.mp hkind
    have hstage := (hexp x hx).1
    rw [h8] at hstage
    exact absurd hstage (by decide)
  · have hfixed : fixedMax ≤ s.length := by
      rw [hs, scriptPieces, renderPieces_append, renderPieces_append, renderPieces_append,
        ← requireText_eq]
      have hlen : fixedMax ≤ (cstr "require [\"fileinto\"").length := by decide
      simp only [requireText, List.length_append]
      omega
    have hlegible : Legible s.length (scriptPieces prof rules blocks mailbox) := by
      refine scriptPieces_legible hfixed ?_ (mailbox_text hprof hlast.1 hlast.2) ?_
      · intro x hx
        obtain ⟨hp, hm⟩ := string_mem_script prof rules mailbox hx
        have h1 := string_length_le hp
        have h2 := string_length_le hm
        rw [← hs] at h1 h2
        exact ⟨predicate_text (hitem x hx).1 (hexp x hx).2, h1,
          mailbox_text hprof (hitem x hx).1 (hitem x hx).2, h2⟩
      · rw [hs]
        exact string_length_le (by simp [scriptPieces, actionPieces])
    have htokens := (tokenizes_render hlegible.fits hlegible.chain).tokens
    rw [← hs] at htokens
    rw [readText, htokens, readScript_pieces prof rules h7]

/-- Running the generated script files every message the classifier accepts
into the mailbox of the classifier's winner. -/
theorem emitted_script_files_winner (posix : Posix) (sources : List Source) (data : Bytes)
    (m : Message) {p : Policy} {prof : Profile} {names : List Bytes} {z s : Bytes} {w : Option ℕ}
    (hp : policyParse posix sources = .ok p) (hprof : profileParse data = .ok prof)
    (hnames : mailboxNames prof p.rules = some names)
    (hemit : emitText prof p.rules names = .ok (z, s))
    (hclass : policyClassify posix p m = .ok w) :
    ∃ script i r, readText s = some script ∧ script.blocks.length = 7 ∧ w = some i ∧
      p.rules[i]? = some r ∧ profileMailbox prof r = some (runScript posix m script) := by
  obtain ⟨rules, hrules, rfl⟩ := map_eq_ok_iff.mp hp
  have hres := parseRules_resolved hrules
  obtain ⟨i, rfl, hfirst⟩ := classify_least hres.toHasBuiltins hclass
  obtain ⟨blocks, last, mailbox, hzip, h7, hne, hread⟩ :=
    readText_emitted (profileParse_ok hprof).1 hres hnames hemit
  have hlen : names.length = rules.length := mailboxNames_length hnames
  have hrulesEq : rules = blocks.flatten.map Prod.fst ++ [last] := by
    rw [← List.map_fst_zip (Nat.le_of_eq hlen.symm), hzip]
    simp
  have hnamesEq : names = blocks.flatten.map Prod.snd ++ [mailbox] := by
    rw [← @List.map_snd_zip _ _ rules _ (Nat.le_of_eq hlen), hzip]
    simp
  obtain ⟨r, hr, _⟩ := hfirst.1
  have hfields : ∀ a ∈ m.addresses, a.field ∈ [fieldFrom, fieldSender, fieldTo, fieldCc] := by
    obtain ⟨_, hvalid, _⟩ := bind_eq_ok_iff.mp hclass
    exact fun a ha => (validateMessage_ok hvalid a ha).1
  have htest : ∀ x ∈ blocks.flatten,
      TestHolds posix m (commandOf prof x).test ↔ Holds posix m x.1 := by
    intro x hx
    refine testHolds_iff (hres.ok x.1 ?_) (hne x hx) hfields
    rw [hrulesEq]
    simp only [List.mem_append]
    exact Or.inl (List.mem_map_of_mem hx)
  refine ⟨_, i, r, hread, by simpa using h7, rfl, hr, ?_⟩
  rw [← mailboxNames_get hnames hr, hnamesEq]
  have hrun := runCommands_first mailbox htest (hrulesEq ▸ hfirst)
  rw [hrun, runScript, List.map_flatten]

theorem emitted_script_files_sample : ∃ p prof names z s w,
    policyParse samplePosix sampleSources = .ok p ∧ profileParse [] = .ok prof ∧
    mailboxNames prof p.rules = some names ∧ emitText prof p.rules names = .ok (z, s) ∧
    policyClassify samplePosix p sampleMessage = .ok w ∧
    ∃ script i r, readText s = some script ∧ script.blocks.length = 7 ∧ w = some i ∧
      p.rules[i]? = some r ∧
      profileMailbox prof r = some (runScript samplePosix sampleMessage script) := by
  obtain ⟨names, hnames⟩ := Option.isSome_iff_exists.mp sampleNames_isSome
  obtain ⟨⟨z, s⟩, hemit⟩ := exists_eq_ok sampleText_isOk
  rw [hnames, Option.getD_some] at hemit
  exact ⟨_, _, names, z, s, _, policyParse_sample, profileParse_sample, hnames, hemit,
    policyClassify_sample, emitted_script_files_winner samplePosix sampleSources [] sampleMessage
      policyParse_sample profileParse_sample hnames hemit policyClassify_sample⟩

end JaroFilter
