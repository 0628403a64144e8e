import JaroFilter.Lib.Shell
import JaroFilter.Policy.Identity
import JaroFilter.Sieve.Emitted

/-!
# The shell tables are data (`emit.c:7-13`, `32-68`)

Read with the shell's quoting rules, the text is a fixed skeleton of
declarations and assignments; every value stands between single quotes, and
sourcing it sets the rule table, the three historical arrays and the two maps.
-/

namespace JaroFilter

open Lib

/-! ### One value -/

/-- The marks of a value between `quoteZsh`'s outer quotes. -/
def quotedMarks (s : Bytes) : List Shell.Mark :=
  s.flatMap fun c => if c = 39 then [.edge, .backslash, .escaped 39, .edge] else [.quoted c]

def valueMarks (s : Bytes) : List Shell.Mark := .edge :: (quotedMarks s ++ [.edge])

theorem quotedMarks_cons (c : Byte) (s : Bytes) : quotedMarks (c :: s) =
    (if c = 39 then [.edge, .backslash, .escaped 39, .edge] else [.quoted c]) ++ quotedMarks s :=
  List.flatMap_cons

theorem scan_quoted (s : Bytes) :
    Shell.scan .quotes (s.flatMap (fun c => if c = 39 then [39, 92, 39, 39] else [c]) ++ [39]) =
      (.word, quotedMarks s ++ [.edge]) := by
  induction s with
  | nil => decide
  | cons c s ih =>
    rw [List.flatMap_cons, List.append_assoc, Shell.scan_append]
    by_cases hc : c = 39
    · have hstep : Shell.scan .quotes [39, 92, 39, 39] =
          (.quotes, [.edge, .backslash, .escaped 39, .edge]) := by decide
      rw [if_pos hc, hstep, ih, quotedMarks_cons, if_pos hc]
      simp
    · have hstep : Shell.scan .quotes [c] = (.quotes, [.quoted c]) := by
        simp [Shell.scan, Shell.place, hc]
      rw [if_neg hc, hstep, ih, quotedMarks_cons, if_neg hc]
      simp

theorem scan_value (s : Bytes) : Shell.scan .start (quoteZsh s) = (.word, valueMarks s) := by
  have hopen : Shell.place .start 39 = (.quotes, .edge) := by decide
  rw [quoteZsh, List.cons_append, Shell.scan, hopen, scan_quoted]
  rfl

theorem wordText_value (s : Bytes) : Shell.wordText (valueMarks s) = s := by
  have hbody : (quotedMarks s).filterMap Shell.Mark.value = s := by
    induction s with
    | nil => rfl
    | cons c s ih =>
      rw [quotedMarks_cons, List.filterMap_append, ih]
      by_cases hc : c = 39
      · rw [if_pos hc, hc]
        rfl
      · rw [if_neg hc]
        rfl
  rw [Shell.wordText, valueMarks, List.filterMap_cons_none rfl, List.filterMap_append, hbody]
  simp [Shell.Mark.value]

theorem mem_valueMarks {s : Bytes} {m : Shell.Mark} (h : m ∈ valueMarks s) :
    m.outside = none ∧ m.tame = true := by
  simp only [valueMarks, quotedMarks, List.mem_cons, List.mem_append, List.mem_flatMap,
    List.not_mem_nil, or_false] at h
  obtain rfl | ⟨c, -, hm⟩ | rfl := h
  · decide
  · split at hm
    · exact (by decide : ∀ m ∈ [Shell.Mark.edge, .backslash, .escaped 39, .edge],
        m.outside = none ∧ m.tame = true) m hm
    · rw [List.mem_singleton.mp hm]
      exact ⟨rfl, rfl⟩
  · decide

/-- A value with the separator behind it. -/
theorem reads_value (s : Bytes) {c : Byte} {ts : List Shell.Token}
    (hplace : Shell.place .word c = (.start, .bare c))
    (hlex : ∀ w, w ≠ [] → Shell.lexMark ⟨[], w⟩ (.bare c) = some ⟨.word w :: ts, []⟩) :
    Shell.Reads (quoteZsh s ++ [c]) (.word (valueMarks s) :: ts) [c] := by
  have hscan : Shell.scan .start (quoteZsh s ++ [c]) = (.start, valueMarks s ++ [.bare c]) := by
    rw [Shell.scan_append, scan_value]
    simp [Shell.scan, hplace]
  refine ⟨?_, ?_, ?_, ?_⟩
  · rw [hscan]
  · rw [hscan]
    simp only [List.foldlM_append,
      Shell.foldlM_lexMark_solid (fun m hm => (mem_valueMarks hm).1), List.nil_append,
      Option.bind_eq_bind, Option.bind_some, List.foldlM_cons, List.foldlM_nil,
      hlex (valueMarks s) (by simp [valueMarks])]
    rfl
  · rw [hscan]
    simp only [List.filterMap_append, List.filterMap_cons, List.filterMap_nil, Shell.Mark.outside]
    rw [List.filterMap_eq_nil_iff.mpr fun m hm => (mem_valueMarks hm).1]
    rfl
  · rw [hscan, List.all_append, List.all_eq_true.mpr fun m hm => (mem_valueMarks hm).2]
    rfl

theorem reads_value_blank (s : Bytes) :
    Shell.Reads (quoteZsh s ++ [32]) [.word (valueMarks s)] [32] :=
  reads_value s (by decide) fun w hw => by simp [Shell.lexMark, Shell.Lexer.flush, hw, isBlank]

theorem reads_value_right (s : Bytes) :
    Shell.Reads (quoteZsh s ++ [41]) [.word (valueMarks s), .right] [41] :=
  reads_value s (by decide) fun w hw => by simp [Shell.lexMark, Shell.Lexer.flush, hw, isBlank]

/-! ### The skeleton -/

/-- The bytes of a rule's historical line that quoting leaves to the shell. -/
def entrySkeleton (kind : Kind) (stage : ℕ) : Bytes :=
  if kind = .ere then cstr (if stage = 3 then "filter_from+=( )\n" else "filter_to+=( )\n")
  else if stage = 1 then cstr "filter_blacklist+=()\n"
  else if stage = 5 ∧ kind = .address then cstr "filter_whitelist+=()\n"
  else if stage = 7 then cstr "filter_own+=()\n"
  else []

/-- The bytes of a column over `n` rules that quoting leaves to the shell. -/
def columnSkeleton (n : ℕ) (column : String) : Bytes :=
  cstr "filter_rule_" ++ cstr column ++ cstr "=(" ++ List.replicate n 32 ++ cstr " )\n"

/-- The statements of the text, without a value. -/
def zshSkeleton (shape : List (Kind × ℕ)) : Bytes :=
  zshHeader ++ shape.flatMap (fun x => entrySkeleton x.1 x.2) ++
    zshColumns.flatMap fun column => columnSkeleton shape.length column.1

/-! ### The statements -/

def headerStatements : List Shell.Statement :=
  [.command [cstr "unset", cstr "filter_from", cstr "filter_to", cstr "filter_own",
      cstr "filter_whitelist", cstr "filter_blacklist", cstr "filter_rule_ids", cstr "filter_rule_kinds",
      cstr "filter_rule_patterns", cstr "filter_rule_destinations", cstr "filter_rule_stages",
      cstr "filter_rule_masks"],
    .command [cstr "typeset", cstr "-gA", cstr "filter_from", cstr "filter_to"],
    .command [cstr "typeset", cstr "-ga", cstr "filter_own", cstr "filter_whitelist",
      cstr "filter_blacklist", cstr "filter_rule_ids", cstr "filter_rule_kinds",
      cstr "filter_rule_patterns", cstr "filter_rule_destinations", cstr "filter_rule_stages",
      cstr "filter_rule_masks"],
    .assign (cstr "filter_from") false [], .assign (cstr "filter_to") false [],
    .assign (cstr "filter_own") false [], .assign (cstr "filter_whitelist") false [],
    .assign (cstr "filter_blacklist") false []]

/-- The statement of a rule's historical line. -/
def entryStatement (r : Rule) : List Shell.Statement :=
  if r.kind = .ere then
    [.assign (cstr (if r.stage = 3 then "filter_from" else "filter_to")) true [r.predicate, r.localDir]]
  else if r.stage = 1 then [.assign (cstr "filter_blacklist") true [r.predicate]]
  else if r.stage = 5 ∧ r.kind = .address then [.assign (cstr "filter_whitelist") true [r.predicate]]
  else if r.stage = 7 then [.assign (cstr "filter_own") true [r.predicate]]
  else []

def columnStatement (rules : List Rule) (column : String × (Rule → Bytes)) : Shell.Statement :=
  .assign (cstr "filter_rule_" ++ cstr column.1) false (rules.map column.2)

theorem sources_header : Shell.Sources zshHeader headerStatements zshHeader := by
  obtain ⟨ts, hts⟩ : ∃ ts, ts = (Shell.shellTokens zshHeader).getD [] := ⟨_, rfl⟩
  have hfacts : Shell.Reads zshHeader ts zshHeader ∧
      Shell.statements [] ts = some headerStatements ∧ ts.getLast? = some .newline := by
    rw [hts]
    decide +kernel
  exact .intro hfacts.1 hfacts.2.1 hfacts.2.2

/-- An assignment of literal words, on a line of its own. -/
theorem sources_assignment (values : List Bytes) {head body o : Bytes} {w : List Shell.Mark}
    {name : Bytes} {append : Bool} (hhead : Shell.Reads head [.word w, .left] head)
    (hname : Shell.assignment w = some (name, append))
    (hbody : Shell.Reads body (values.map (fun v => .word (valueMarks v)) ++ [.right]) o) :
    Shell.Sources (head ++ body ++ [10]) [.assign name append values] (head ++ o ++ [10]) := by
  have hlf : Shell.Reads [10] [.newline] [10] := by decide
  refine .line ((hhead.append hbody).append hlf) (by simp) ?_
  have hwords := Shell.listWords_words (values.map valueMarks)
  rw [List.map_map, List.map_map] at hwords
  have hvalues : values.map (Shell.wordText ∘ valueMarks) = values := by
    simp [Function.comp_def, wordText_value]
  rw [hvalues] at hwords
  simp only [List.cons_append, List.nil_append, Shell.statement, hname, Option.bind_eq_bind,
    Option.bind_some]
  exact congrArg (fun x => x.bind fun values => some (some (Shell.Statement.assign name append values)))
    hwords

theorem sources_entry (r : Rule) :
    Shell.Sources (zshRule r) (entryStatement r) (entrySkeleton r.kind r.stage) := by
  have hclose : cstr ")\n" = [41] ++ [10] := by decide
  have hblank : cstr " " = [32] := by decide
  have hone : ∀ {head name : Bytes} {w : List Shell.Mark}, Shell.Reads head [.word w, .left] head →
      Shell.assignment w = some (name, true) → Shell.Sources
        (head ++ quoteZsh r.predicate ++ cstr ")\n") [.assign name true [r.predicate]]
        (head ++ cstr ")\n") := by
    intro head name w hhead hname
    have hline := sources_assignment [r.predicate] hhead hname (reads_value_right r.predicate)
    simpa [hclose] using hline
  have htwo : ∀ {head name : Bytes} {w : List Shell.Mark}, Shell.Reads head [.word w, .left] head →
      Shell.assignment w = some (name, true) → Shell.Sources
        (head ++ quoteZsh r.predicate ++ cstr " " ++ quoteZsh r.localDir ++ cstr ")\n")
        [.assign name true [r.predicate, r.localDir]] (head ++ cstr " )\n") := by
    intro head name w hhead hname
    have hspace : cstr " )\n" = [32] ++ [41] ++ [10] := by decide
    have hline := sources_assignment [r.predicate, r.localDir] hhead hname
      ((reads_value_blank r.predicate).append (reads_value_right r.localDir))
    simpa [hclose, hblank, hspace] using hline
  unfold zshRule entryStatement entrySkeleton
  by_cases hk : r.kind = .ere
  · simp only [if_pos hk]
    by_cases h3 : r.stage = 3
    · simp only [if_pos h3]
      exact htwo (w := (cstr "filter_from+=").map .bare) (by decide) (by decide)
    · simp only [if_neg h3]
      exact htwo (w := (cstr "filter_to+=").map .bare) (by decide) (by decide)
  · simp only [if_neg hk]
    split
    · exact hone (w := (cstr "filter_blacklist+=").map .bare) (by decide) (by decide)
    · split
      · exact hone (w := (cstr "filter_whitelist+=").map .bare) (by decide) (by decide)
      · split
        · exact hone (w := (cstr "filter_own+=").map .bare) (by decide) (by decide)
        · exact .nil

/-- The words of a column, each behind a blank, and the blank behind the last. -/
theorem blank_words (f : Rule → Bytes) (rules : List Rule) :
    rules.flatMap (fun r => [32] ++ quoteZsh (f r)) ++ [32] =
      [32] ++ rules.flatMap fun r => quoteZsh (f r) ++ [32] := by
  induction rules with
  | nil => rfl
  | cons r rules ih => simp only [List.flatMap_cons, List.append_assoc, ih]

theorem sources_column {column : String × (Rule → Bytes)} (hc : column ∈ zshColumns)
    (rules : List Rule) : Shell.Sources
      (cstr "filter_rule_" ++ cstr column.1 ++ cstr "=(" ++
        rules.flatMap (fun r => cstr " " ++ quoteZsh (column.2 r)) ++ cstr " )\n")
      [columnStatement rules column] (columnSkeleton rules.length column.1) := by
  have hblank : cstr " " = [32] := by decide
  have hclose : cstr " )\n" = [32] ++ [41] ++ [10] := by decide
  have hheads : ∀ name ∈ zshColumns.map Prod.fst,
      Shell.Reads (cstr "filter_rule_" ++ cstr name ++ cstr "=(" ++ [32])
        [.word ((cstr "filter_rule_" ++ cstr name ++ cstr "=").map .bare), .left]
        (cstr "filter_rule_" ++ cstr name ++ cstr "=(" ++ [32]) ∧
      Shell.assignment ((cstr "filter_rule_" ++ cstr name ++ cstr "=").map .bare) =
        some (cstr "filter_rule_" ++ cstr name, false) := by decide
  obtain ⟨hhead, hname⟩ := hheads _ (List.mem_map_of_mem hc)
  have hwords : Shell.Reads (rules.flatMap fun r => quoteZsh (column.2 r) ++ [32])
      (rules.flatMap fun r => [.word (valueMarks (column.2 r))]) (rules.flatMap fun _ => [32]) :=
    .flatMap fun r _ => reads_value_blank (column.2 r)
  have hright : Shell.Reads [41] [.right] [41] := by decide
  have hbody := hwords.append hright
  rw [← List.map_eq_flatMap, ← List.map_eq_flatMap, List.map_const'] at hbody
  have hline := sources_assignment (rules.map column.2) hhead hname
    (by rw [List.map_map]; exact hbody)
  have htext : rules.flatMap (fun r => cstr " " ++ quoteZsh (column.2 r)) ++ cstr " )\n" =
      [32] ++ (rules.flatMap (fun r => quoteZsh (column.2 r) ++ [32]) ++ [41]) ++ [10] := by
    rw [hblank, hclose, ← List.append_assoc, ← List.append_assoc, blank_words]
    simp
  have hskeleton : columnSkeleton rules.length column.1 =
      cstr "filter_rule_" ++ cstr column.1 ++ cstr "=(" ++ [32] ++
        (List.replicate rules.length 32 ++ [41]) ++ [10] := by
    have hcons : List.replicate rules.length (32 : Byte) ++ [32] =
        [32] ++ List.replicate rules.length 32 := by
      rw [← List.replicate_succ', List.replicate_succ]
      rfl
    rw [columnSkeleton, hclose]
    simp only [List.append_assoc]
    rw [← List.append_assoc (List.replicate _ _) [32], hcons]
    simp
  rw [List.append_assoc, htext, hskeleton]
  simpa [columnStatement] using hline

theorem sources_text (rules : List Rule) : Shell.Sources (zshText rules)
    (headerStatements ++ rules.flatMap entryStatement ++ zshColumns.map (columnStatement rules))
    (zshSkeleton (rules.map fun r => (r.kind, r.stage))) := by
  have hentries : Shell.Sources (rules.flatMap zshRule) (rules.flatMap entryStatement)
      ((rules.map fun r => (r.kind, r.stage)).flatMap fun x => entrySkeleton x.1 x.2) := by
    rw [List.flatMap_map]
    exact .flatMap fun r _ => sources_entry r
  have hcolumns := Shell.Sources.flatMap fun column hc => sources_column hc rules
  rw [← List.map_eq_flatMap] at hcolumns
  rw [zshSkeleton, List.length_map]
  exact (sources_header.append hentries).append hcolumns

/-! ### What sourcing it sets -/

/-- The pairs of the expression rules of a stage. -/
def expressions (stage : ℕ) (rules : List Rule) : List (Bytes × Bytes) :=
  (rules.filter fun r => r.kind = .ere ∧ r.stage = stage).map fun r => (r.predicate, r.localDir)

/-- The predicates of the rules of a historical array. -/
def predicates (p : Rule → Prop) [DecidablePred p] (rules : List Rule) : List Bytes :=
  (rules.filter fun r => p r).map Rule.predicate

/-- The historical variables behind the lines of `rules`. -/
structure Historical (env0 env : Shell.Env) (rules : List Rule) : Prop where
  senders : env (cstr "filter_from") = some (.map (expressions 3 rules))
  recipients : env (cstr "filter_to") = some (.map (expressions 4 rules))
  own : env (cstr "filter_own") = some (.array (predicates (fun r => r.stage = 7) rules))
  whitelist : env (cstr "filter_whitelist") =
    some (.array (predicates (fun r => r.stage = 5 ∧ r.kind = .address) rules))
  blacklist : env (cstr "filter_blacklist") = some (.array (predicates (fun r => r.stage = 1) rules))
  other : ∀ n ∉ [cstr "filter_from", cstr "filter_to", cstr "filter_own", cstr "filter_whitelist",
    cstr "filter_blacklist"], env n = env0 n

theorem ere_stage {r : Rule} (h : RuleOk r) (hk : r.kind = .ere) : r.stage = 3 ∨ r.stage = 4 := by
  have hplaced := h.placed
  rw [hk] at hplaced
  simp only [placements, List.mem_cons, Prod.mk.injEq, List.not_mem_nil, or_false] at hplaced
  omega

theorem expressions_append (stage : ℕ) (rules : List Rule) (r : Rule) :
    expressions stage (rules ++ [r]) = expressions stage rules ++
      if r.kind = .ere ∧ r.stage = stage then [(r.predicate, r.localDir)] else [] := by
  simp only [expressions, List.filter_append, List.map_append, List.filter_cons, List.filter_nil]
  split <;> simp_all

theorem predicates_append (p : Rule → Prop) [DecidablePred p] (rules : List Rule) (r : Rule) :
    predicates p (rules ++ [r]) = predicates p rules ++ if p r then [r.predicate] else [] := by
  simp only [predicates, List.filter_append, List.map_append, List.filter_cons, List.filter_nil]
  split <;> simp_all

/-- Two expression rules of a stage differ in their predicates. -/
def Separate (x y : Rule) : Prop :=
  x.kind = .ere → y.kind = .ere → x.stage = y.stage → x.predicate ≠ y.predicate

theorem insert_expression {stage : ℕ} {rules : List Rule} {r : Rule} (hk : r.kind = .ere)
    (hs : r.stage = stage) (hsep : ∀ x ∈ rules, Separate x r) :
    Shell.insertEntry (expressions stage rules) (r.predicate, r.localDir) =
      expressions stage rules ++ [(r.predicate, r.localDir)] := by
  refine Shell.insertEntry_new fun x hx => ?_
  obtain ⟨y, hy, rfl⟩ := List.mem_map.mp hx
  obtain ⟨hy, hp⟩ := List.mem_filter.mp hy
  obtain ⟨hyk, hys⟩ := of_decide_eq_true hp
  exact hsep y hy hyk hk (hys.trans hs.symm)

/-- The five historical names. -/
def historicalNames : List Bytes :=
  [cstr "filter_from", cstr "filter_to", cstr "filter_own", cstr "filter_whitelist",
    cstr "filter_blacklist"]

theorem historical_distinct : historicalNames.Nodup := by decide

/-- A rule without a line leaves the variables as they are. -/
theorem Historical.silent {env0 env : Shell.Env} {done : List Rule} {r : Rule}
    (h : Historical env0 env done) (hk : r.kind ≠ .ere) (h1 : r.stage ≠ 1)
    (h5 : ¬ (r.stage = 5 ∧ r.kind = .address)) (h7 : r.stage ≠ 7) : Historical env0 env (done ++ [r]) := by
  refine ⟨?_, ?_, ?_, ?_, ?_, h.other⟩
  · rw [h.senders, expressions_append, if_neg fun hc => hk hc.1, List.append_nil]
  · rw [h.recipients, expressions_append, if_neg fun hc => hk hc.1, List.append_nil]
  · rw [h.own, predicates_append, if_neg h7, List.append_nil]
  · rw [h.whitelist, predicates_append, if_neg h5, List.append_nil]
  · rw [h.blacklist, predicates_append, if_neg h1, List.append_nil]

theorem run_entry {env0 env : Shell.Env} {done : List Rule} {r : Rule} (h : Historical env0 env done)
    (hr : RuleOk r) (hsep : ∀ x ∈ done, Separate x r) :
    ∃ env', (entryStatement r).foldlM Shell.Statement.run env = some env' ∧
      Historical env0 env' (done ++ [r]) := by
  obtain ⟨hsenders, hrecipients, hown, hwhite, hblack, hother⟩ := h
  have hnames := historical_distinct
  simp only [historicalNames, List.nodup_cons, List.mem_cons, List.not_mem_nil, or_false, not_or,
    not_false_eq_true, List.nodup_nil, and_true] at hnames
  obtain ⟨⟨h12, h13, h14, h15⟩, ⟨h23, h24, h25⟩, ⟨h34, h35⟩, h45⟩ := hnames
  unfold entryStatement
  by_cases hk : r.kind = .ere
  · rw [if_pos hk]
    have hkey : ∀ stage, r.stage = stage → Shell.insertEntry (expressions stage done)
        (r.predicate, r.localDir) = expressions stage done ++ [(r.predicate, r.localDir)] :=
      fun stage hs => insert_expression hk hs hsep
    obtain h3 | h4 := ere_stage hr hk
    · rw [if_pos h3]
      refine ⟨env.set (cstr "filter_from")
        (some (.map (expressions 3 done ++ [(r.predicate, r.localDir)]))), ?_, ?_⟩
      · simp [Shell.Statement.run, Shell.Variable.assign, Shell.pairs, hsenders, hkey 3 h3]
      · refine ⟨?_, ?_, ?_, ?_, ?_, fun n hn => ?_⟩
        all_goals simp_all [Shell.Env.set, expressions_append, predicates_append, eq_comm]
    · rw [if_neg (by omega)]
      refine ⟨env.set (cstr "filter_to")
        (some (.map (expressions 4 done ++ [(r.predicate, r.localDir)]))), ?_, ?_⟩
      · simp [Shell.Statement.run, Shell.Variable.assign, Shell.pairs, hrecipients, hkey 4 h4]
      · refine ⟨?_, ?_, ?_, ?_, ?_, fun n hn => ?_⟩
        all_goals simp_all [Shell.Env.set, expressions_append, predicates_append, eq_comm]
  · rw [if_neg hk]
    by_cases h1 : r.stage = 1
    · rw [if_pos h1]
      refine ⟨env.set (cstr "filter_blacklist")
        (some (.array (predicates (fun r => r.stage = 1) done ++ [r.predicate]))), ?_, ?_⟩
      · simp [Shell.Statement.run, Shell.Variable.assign, hblack]
      · refine ⟨?_, ?_, ?_, ?_, ?_, fun n hn => ?_⟩
        all_goals simp_all [Shell.Env.set, expressions_append, predicates_append, eq_comm]
    · rw [if_neg h1]
      by_cases h5 : r.stage = 5 ∧ r.kind = .address
      · rw [if_pos h5]
        refine ⟨env.set (cstr "filter_whitelist") (some (.array
          (predicates (fun r => r.stage = 5 ∧ r.kind = .address) done ++ [r.predicate]))), ?_, ?_⟩
        · simp [Shell.Statement.run, Shell.Variable.assign, hwhite]
        · refine ⟨?_, ?_, ?_, ?_, ?_, fun n hn => ?_⟩
          all_goals simp_all [Shell.Env.set, expressions_append, predicates_append, eq_comm]
      · rw [if_neg h5]
        by_cases h7 : r.stage = 7
        · rw [if_pos h7]
          refine ⟨env.set (cstr "filter_own")
            (some (.array (predicates (fun r => r.stage = 7) done ++ [r.predicate]))), ?_, ?_⟩
          · simp [Shell.Statement.run, Shell.Variable.assign, hown]
          · refine ⟨?_, ?_, ?_, ?_, ?_, fun n hn => ?_⟩
            all_goals simp_all [Shell.Env.set, expressions_append, predicates_append, eq_comm]
        · rw [if_neg h7]
          exact ⟨env, rfl, Historical.silent ⟨hsenders, hrecipients, hown, hwhite, hblack, hother⟩
            hk h1 h5 h7⟩

theorem run_entries {env0 env : Shell.Env} {done rules : List Rule} (h : Historical env0 env done)
    (hr : ∀ r ∈ rules, RuleOk r) (hsep : (done ++ rules).Pairwise Separate) :
    ∃ env', (rules.flatMap entryStatement).foldlM Shell.Statement.run env = some env' ∧
      Historical env0 env' (done ++ rules) := by
  induction rules generalizing done env with
  | nil => exact ⟨env, rfl, by rwa [List.append_nil]⟩
  | cons r rules ih =>
    have hfresh : ∀ x ∈ done, Separate x r := fun x hx =>
      (List.pairwise_append.mp hsep).2.2 x hx r (by simp)
    obtain ⟨env1, hstep, h1⟩ := run_entry h (hr r (by simp)) hfresh
    obtain ⟨env2, hrest, h2⟩ := ih h1 (fun x hx => hr x (by simp [hx])) (by simpa using hsep)
    refine ⟨env2, ?_, by simpa using h2⟩
    simp only [List.flatMap_cons, List.foldlM_append, hstep, Option.bind_eq_bind, Option.bind_some]
    exact hrest

/-- The columns of the rule table. -/
def columnNames : List Bytes := zshColumns.map fun column => cstr "filter_rule_" ++ cstr column.1

theorem run_empty {env : Shell.Env} {n : Bytes}
    (h : env n = some (.map []) ∨ env n = some (.array [])) :
    Shell.Statement.run env (.assign n false []) = some env := by
  have hset : ∀ v, env n = some v → env.set n (some v) = env := by
    intro v hv
    funext m
    by_cases hm : m = n
    · rw [Shell.Env.set, if_pos hm, hm, hv]
    · rw [Shell.Env.set, if_neg hm]
  obtain h | h := h
  · simp [Shell.Statement.run, h, Shell.Variable.assign, Shell.pairs, hset _ h]
  · simp [Shell.Statement.run, h, Shell.Variable.assign, hset _ h]

/-- The variables behind the declarations. -/
def declared (env : Shell.Env) : Shell.Env :=
  ((env.setAll (historicalNames ++ columnNames) none).setAll (historicalNames.take 2)
    (some (.map []))).setAll (historicalNames.drop 2 ++ columnNames) (some (.array []))

theorem declared_array (env : Shell.Env) {n : Bytes} (h : n ∈ historicalNames.drop 2 ++ columnNames) :
    declared env n = some (.array []) := by
  rw [declared, Shell.setAll_apply, if_pos h]

theorem declared_map (env : Shell.Env) {n : Bytes} (h : n ∈ historicalNames.take 2) :
    declared env n = some (.map []) := by
  have hne : n ∉ historicalNames.drop 2 ++ columnNames :=
    (by decide : ∀ n ∈ historicalNames.take 2, n ∉ historicalNames.drop 2 ++ columnNames) n h
  rw [declared, Shell.setAll_apply, if_neg hne, Shell.setAll_apply, if_pos h]

theorem declared_other (env : Shell.Env) {n : Bytes} (h : n ∉ historicalNames ++ columnNames) :
    declared env n = env n := by
  have hdrop : n ∉ historicalNames.drop 2 ++ columnNames := fun hn =>
    h ((by decide : ∀ n ∈ historicalNames.drop 2 ++ columnNames,
      n ∈ historicalNames ++ columnNames) n hn)
  have htake : n ∉ historicalNames.take 2 := fun hn =>
    h ((by decide : ∀ n ∈ historicalNames.take 2, n ∈ historicalNames ++ columnNames) n hn)
  rw [declared, Shell.setAll_apply, if_neg hdrop, Shell.setAll_apply, if_neg htake,
    Shell.setAll_apply, if_neg h]

theorem run_header (env : Shell.Env) :
    headerStatements.foldlM Shell.Statement.run env = some (declared env) := by
  have hunset : Shell.Statement.run env (.command (cstr "unset" :: (historicalNames ++ columnNames))) =
      some (env.setAll (historicalNames ++ columnNames) none) := by
    rw [Shell.Statement.run, if_pos rfl]
  have htypeset : ∀ (env : Shell.Env) (names : List Bytes),
      Shell.Statement.run env (.command (cstr "typeset" :: cstr "-gA" :: names)) =
        some (env.setAll names (some (.map []))) ∧
      Shell.Statement.run env (.command (cstr "typeset" :: cstr "-ga" :: names)) =
        some (env.setAll names (some (.array []))) := by
    intro env names
    constructor
    · rw [Shell.Statement.run, if_neg (by decide), if_neg fun h => absurd h.2 (by simp; decide),
        if_pos ⟨rfl, rfl⟩]
      rfl
    · rw [Shell.Statement.run, if_neg (by decide), if_pos ⟨rfl, rfl⟩]
      rfl
  have hempty : ∀ n ∈ historicalNames,
      Shell.Statement.run (declared env) (.assign n false []) = some (declared env) := by
    intro n hn
    refine run_empty ?_
    rw [← List.take_append_drop 2 historicalNames, List.mem_append] at hn
    exact hn.imp (declared_map env) fun h => declared_array env (List.mem_append_left _ h)
  have hfold : ∀ names : List Bytes, names ⊆ historicalNames →
      (names.map fun n => Shell.Statement.assign n false []).foldlM Shell.Statement.run (declared env) =
        some (declared env) := by
    intro names hsub
    induction names with
    | nil => rfl
    | cons n names ih =>
      simp only [List.map_cons, List.foldlM_cons, hempty n (hsub (by simp)), Option.bind_eq_bind,
        Option.bind_some]
      exact ih fun m hm => hsub (by simp [hm])
  have hstatements : headerStatements =
      [.command (cstr "unset" :: (historicalNames ++ columnNames)),
        .command (cstr "typeset" :: cstr "-gA" :: historicalNames.take 2),
        .command (cstr "typeset" :: cstr "-ga" :: (historicalNames.drop 2 ++ columnNames))] ++
      historicalNames.map fun n => .assign n false [] := by decide
  rw [hstatements, List.foldlM_append]
  simp only [List.foldlM_cons, List.foldlM_nil, hunset, (htypeset _ _).1, (htypeset _ _).2,
    Option.bind_eq_bind, Option.bind_some]
  exact hfold historicalNames fun _ h => h

/-! ### Expression rules have their own predicates -/

/-- An expression rule has the selector of its stage. -/
def Selects (r : Rule) : Prop :=
  r.kind = .ere → r.selector = if r.stage = 3 then cstr "from" else cstr "to"

theorem filterPredicate_ere {kind : Kind} {t p : Bytes} (h : filterPredicate kind t = .ok (.ere, p)) :
    kind = .ere := by
  cases kind with
  | domainApex =>
    simp only [filterPredicate] at h
    repeat' split at h
    all_goals cases h
  | address =>
    simp only [filterPredicate] at h
    split at h <;> cases h
  | _ =>
    cases h
    try rfl

theorem parseLine_selects {s : Source} {number : ℕ} {line : Bytes} {r : Rule}
    (h : parseLine s number line = .ok (some r)) : Selects r := by
  have hcontact : parseContact s number line = .ok (some r) → Selects r := by
    intro h
    simp only [parseContact] at h
    repeat' split at h
    all_goals cases h
    all_goals exact fun hk => by cases hk
  unfold parseLine at h
  split at h
  · exact hcontact h
  · split at h
    · cases h
    · split at h
      · cases h
      · cases h
      · rename_i tokens _ _
        split at h
        · simp only [parseFilter] at h
          split at h
          · cases h
          · rename_i kind hkind
            have hselects : kind = .ere → tokens.getD 0 [] =
                if filterStage (tokens.getD 0 []) = 3 then cstr "from" else cstr "to" := by
              rintro rfl
              obtain ⟨hk, -⟩ | ⟨hk, -⟩ | ⟨-, hm⟩ := selectorKind_cases hkind
              · cases hk
              · cases hk
              · exact (by decide : ∀ t ∈ [cstr "from", cstr "to"],
                  t = if filterStage t = 3 then cstr "from" else cstr "to") _ hm
            repeat' split at h
            all_goals cases h
            all_goals
              rename_i kind' _ hpred _
              intro hk
              obtain rfl : kind' = .ere := hk
              exact hselects (filterPredicate_ere hpred)
        · simp only [parseOwn] at h
          repeat' split at h
          all_goals cases h
          all_goals exact fun hk => by cases hk

theorem rules_separate {posix : Posix} {sources : List Source} {rules : List Rule}
    (h : parseRules posix sources = .ok rules) : rules.Pairwise Separate := by
  have hselects : ∀ r ∈ rules, Selects r := by
    intro r hr
    obtain ⟨q, rfl, hq | hq⟩ := (mem_rules h).mp hr
    · obtain ⟨e, he, -, rfl⟩ := selected_source hq
      obtain ⟨i, hi⟩ := mem_parsedEntries he
      obtain ⟨s, -, hrec⟩ := mem_parsed.mp hi
      obtain ⟨l, n, -, hline⟩ := mem_records.mp hrec
      exact (parseLine_selects hline : Selects e.rule)
    · exact (by decide : ∀ q ∈ builtinRecords, ¬ q.kind = .ere) q hq |>.elim
  refine (rules_keys h).imp_of_mem ?_
  intro x y hx hy hkey hkx hky hstage hpred
  refine hkey ((compareKey_eq_iff x y).mpr ⟨?_, hpred⟩)
  rw [hselects x hx hkx, hselects y hy hky, hstage]

/-! ### The text of a policy -/

/-- The variables `env'` that sourcing the text in `env` leaves. -/
structure Tables (env env' : Shell.Env) (rules : List Rule) : Prop where
  ids : env' (cstr "filter_rule_ids") = some (.array (rules.map Rule.id))
  kinds : env' (cstr "filter_rule_kinds") = some (.array (rules.map fun r => kindName r.kind))
  patterns : env' (cstr "filter_rule_patterns") = some (.array (rules.map Rule.predicate))
  destinations : env' (cstr "filter_rule_destinations") = some (.array (rules.map Rule.localDir))
  stages : env' (cstr "filter_rule_stages") = some (.array (rules.map fun r => decimalText r.stage))
  masks : env' (cstr "filter_rule_masks") = some (.array (rules.map fun r => decimalText r.fields))
  own : env' (cstr "filter_own") = some (.array (predicates (fun r => r.stage = 7) rules))
  whitelist : env' (cstr "filter_whitelist") =
    some (.array (predicates (fun r => r.stage = 5 ∧ r.kind = .address) rules))
  blacklist : env' (cstr "filter_blacklist") = some (.array (predicates (fun r => r.stage = 1) rules))
  senders : env' (cstr "filter_from") = some (.map (expressions 3 rules))
  recipients : env' (cstr "filter_to") = some (.map (expressions 4 rules))
  other : ∀ n ∉ historicalNames ++ columnNames, env' n = env n

theorem source_tables {rules : List Rule} (hok : ∀ r ∈ rules, RuleOk r) (hsep : rules.Pairwise Separate)
    (env : Shell.Env) : ∃ env', Shell.source env (zshText rules) = some env' ∧ Tables env env' rules := by
  have hstart : Historical (declared env) (declared env) [] :=
    ⟨declared_map env (by decide), declared_map env (by decide), declared_array env (by decide),
      declared_array env (by decide), declared_array env (by decide), fun _ _ => rfl⟩
  obtain ⟨env1, hrun1, h1⟩ := run_entries hstart hok (by simpa using hsep)
  rw [List.nil_append] at h1
  have hapart : ∀ n ∈ columnNames, n ∉ historicalNames := by decide
  have hl : ((zshColumns.map fun c => (cstr "filter_rule_" ++ cstr c.1, rules.map c.2)).map
      Prod.fst) = columnNames := by
    rw [List.map_map]
    rfl
  obtain ⟨env2, hrun2, hset, hkeep⟩ := @Shell.run_assigns
    (zshColumns.map fun c => (cstr "filter_rule_" ++ cstr c.1, rules.map c.2))
    (by rw [hl]; decide) env1 (by
      intro x hx
      have hn : x.1 ∈ columnNames := by
        rw [← hl]
        exact List.mem_map_of_mem hx
      exact ⟨[], by rw [h1.other _ (hapart _ hn), declared_array env (List.mem_append_right _ hn)]⟩)
  rw [hl] at hkeep
  have hcolumn : ∀ c ∈ zshColumns, env2 (cstr "filter_rule_" ++ cstr c.1) =
      some (.array (rules.map c.2)) := fun c hc => hset _ (List.mem_map_of_mem hc)
  have hhistorical : ∀ n ∈ historicalNames, env2 n = env1 n := fun n hn =>
    hkeep n fun hc => hapart n hc hn
  refine ⟨env2, ?_, ?_⟩
  · rw [(sources_text rules).source, List.foldlM_append, List.foldlM_append, run_header]
    simp only [Option.bind_eq_bind, Option.bind_some, hrun1]
    rw [← hrun2, List.map_map]
    rfl
  · refine ⟨hcolumn ("ids", fun r => r.id) (by simp [zshColumns]),
      hcolumn ("kinds", fun r => kindName r.kind) (by simp [zshColumns]),
      hcolumn ("patterns", fun r => r.predicate) (by simp [zshColumns]),
      hcolumn ("destinations", fun r => r.localDir) (by simp [zshColumns]),
      hcolumn ("stages", fun r => decimalText r.stage) (by simp [zshColumns]),
      hcolumn ("masks", fun r => decimalText r.fields) (by simp [zshColumns]),
      ?_, ?_, ?_, ?_, ?_, ?_⟩
    · rw [hhistorical _ (by decide), h1.own]
    · rw [hhistorical _ (by decide), h1.whitelist]
    · rw [hhistorical _ (by decide), h1.blacklist]
    · rw [hhistorical _ (by decide), h1.senders]
    · rw [hhistorical _ (by decide), h1.recipients]
    · intro n hn
      rw [List.mem_append, not_or] at hn
      rw [hkeep n hn.2, h1.other n hn.1, declared_other env (by rw [List.mem_append]; tauto)]

/-- `filters.zsh`, for every policy and every environment it is sourced in: the
bytes outside quotes are those of the skeleton, a backslash there quotes a single
quote, and the tables hold the rules. -/
theorem shell_text_is_data (posix : Posix) (sources : List Source) (prof : Profile)
    (names : List Bytes) {p : Policy} {z s : Bytes} (hp : policyParse posix sources = .ok p)
    (hemit : emitText prof p.rules names = .ok (z, s)) :
    (Shell.scan .start z).1 = .start ∧
    (Shell.scan .start z).2.filterMap Shell.Mark.outside =
      zshSkeleton (p.rules.map fun r => (r.kind, r.stage)) ∧
    (∀ c, .escaped c ∈ (Shell.scan .start z).2 → c = 39) ∧
    ∀ env, ∃ env', Shell.source env z = some env' ∧ Tables env env' p.rules := by
  obtain ⟨rules, hrules, rfl⟩ := map_eq_ok_iff.mp hp
  have hres := parseRules_resolved hrules
  obtain ⟨_, _, _, -, -, -, rfl, -⟩ := emitText_ok hemit hres.ok
  obtain ⟨ts, hreads, -⟩ := (sources_text rules).reads
  refine ⟨hreads.place, hreads.outside, fun c hc => ?_, source_tables hres.ok (rules_separate hrules)⟩
  have htame := List.all_eq_true.mp hreads.tame _ hc
  simpa [Shell.Mark.tame] using htame

theorem shell_text_is_data_sample : ∃ p names z s, policyParse samplePosix sampleSources = .ok p ∧
    emitText sampleProfile p.rules names = .ok (z, s) ∧ (Shell.scan .start z).1 = .start ∧
    (Shell.scan .start z).2.filterMap Shell.Mark.outside =
      zshSkeleton (p.rules.map fun r => (r.kind, r.stage)) ∧
    (∀ c, .escaped c ∈ (Shell.scan .start z).2 → c = 39) ∧
    ∀ env, ∃ env', Shell.source env z = some env' ∧ Tables env env' p.rules := by
  obtain ⟨names, hnames⟩ := Option.isSome_iff_exists.mp sampleNames_isSome
  obtain ⟨⟨z, s⟩, hemit⟩ := exists_eq_ok sampleText_isOk
  rw [hnames, Option.getD_some] at hemit
  exact ⟨_, names, z, s, policyParse_sample, hemit,
    shell_text_is_data samplePosix sampleSources sampleProfile names policyParse_sample hemit⟩

end JaroFilter
