import Polish.Parser

namespace Polish

/-- The statements of the clusters that parse. -/
def Cluster.statements (clusters : List Cluster) : List Statement :=
  clusters.filterMap fun cluster => cluster.parse.toOption

namespace Parsing

variable {α β : Type}

theorem run_bind_of_ok {action : Parsing α} {parser next : Parser} {a : α}
    (h : action.run parser = (.ok a, next)) (f : α → Parsing β) :
    (action >>= f).run parser = (f a).run next := by
  simp only [run] at h ⊢
  rw [ExceptT.run_bind, StateT.run_bind, h]
  rfl

theorem run_bind_of_error {action : Parsing α} {parser next : Parser} {error : ParseError}
    (h : action.run parser = (.error error, next)) (f : α → Parsing β) :
    (action >>= f).run parser = (.error error, next) := by
  simp only [run] at h ⊢
  rw [ExceptT.run_bind, StateT.run_bind, h]
  rfl

theorem run_tryCatch_of_ok {action : Parsing α} {parser next : Parser} {a : α}
    (h : action.run parser = (.ok a, next)) (handler : ParseError → Parsing α) :
    (tryCatch action handler).run parser = (.ok a, next) := by
  simp only [run] at h ⊢
  rw [ExceptT.run_tryCatch, StateT.run_bind, h]
  rfl

theorem run_tryCatch_of_error {action : Parsing α} {parser next : Parser} {error : ParseError}
    (h : action.run parser = (.error error, next)) (handler : ParseError → Parsing α) :
    (tryCatch action handler).run parser = (handler error).run next := by
  simp only [run] at h ⊢
  rw [ExceptT.run_tryCatch, StateT.run_bind, h]
  rfl

theorem run_get (parser : Parser) : (get : Parsing Parser).run parser = (.ok parser, parser) :=
  rfl

theorem run_modify (change : Parser → Parser) (parser : Parser) :
    (modify change : Parsing Unit).run parser = (.ok (), change parser) :=
  rfl

theorem run_pop_of_nil {parser : Parser} (h : parser.stack = []) (word : String) :
    (pop word).run parser = (.error (.missingOperand word), parser) := by
  rw [pop, run_bind_of_ok (run_get parser), h]
  rfl

theorem run_pop_of_cons {parser : Parser} {fragment : Fragment} {stack : List Fragment}
    (h : parser.stack = fragment :: stack) (word : String) :
    (pop word).run parser = (.ok fragment, { parser with stack }) := by
  rw [pop, run_bind_of_ok (run_get parser), h]
  rfl

theorem run_intern (name : String) (parser : Parser) :
    ∃ names, (intern name).run parser = (.ok name, { parser with names }) := by
  rw [intern, run_bind_of_ok (run_get parser)]
  cases hfind : parser.names.find? (· == name) with
  | none => exact ⟨name :: parser.names, rfl⟩
  | some interned =>
      have heq : interned = name := by simpa using List.find?_some hfind
      exact ⟨parser.names, by rw [heq]; rfl⟩

/-- A parser makes of a word and its stack what the word makes of the stack.  It
keeps the operands that it popped to itself if that fails. -/
theorem run_fragmentOf (word : String) (parser : Parser) :
    ∃ names stack result,
      (fragmentOf word (Token.ofWord word)).run parser =
        (result, { parser with names, stack }) ∧
      Fragment.push word parser.stack = result.map (· :: stack) := by
  cases hword : Token.ofWord word with
  | integer value =>
      exact ⟨parser.names, parser.stack, .ok (.expr (.const value) 1), rfl,
        by simp [Fragment.push, hword, Except.map]⟩
  | identifier name =>
      obtain ⟨names, hintern⟩ := run_intern name parser
      refine ⟨names, parser.stack, .ok (.target name), ?_,
        by simp [Fragment.push, hword, Except.map]⟩
      rw [fragmentOf, run_bind_of_ok hintern]
      rfl
  | binary op =>
      rw [fragmentOf]
      rcases hstack : parser.stack with _ | ⟨left, _ | ⟨right, stack⟩⟩
      · refine ⟨parser.names, parser.stack, .error (.missingOperand word), ?_,
          by simp [Fragment.push, hword, Except.map]⟩
        exact run_bind_of_error (run_pop_of_nil hstack word) _
      · refine ⟨parser.names, [], .error (.missingOperand word), ?_,
          by simp [Fragment.push, hword, Except.map]⟩
        rw [run_bind_of_ok (run_pop_of_cons hstack word)]
        exact run_bind_of_error (run_pop_of_nil rfl word) _
      · refine ⟨parser.names, stack, Fragment.operation word (max left.depth right.depth)
          (.binary op left.toExpr right.toExpr), ?_, by simp [Fragment.push, hword]⟩
        rw [run_bind_of_ok (run_pop_of_cons hstack word), run_bind_of_ok (run_pop_of_cons rfl word)]
        rfl
  | unary op =>
      rw [fragmentOf]
      rcases hstack : parser.stack with _ | ⟨operand, stack⟩
      · refine ⟨parser.names, parser.stack, .error (.missingOperand word), ?_,
          by simp [Fragment.push, hword, Except.map]⟩
        exact run_bind_of_error (run_pop_of_nil hstack word) _
      · refine ⟨parser.names, stack, Fragment.operation word operand.depth
          (.unary op operand.toExpr), ?_, by simp [Fragment.push, hword]⟩
        rw [run_bind_of_ok (run_pop_of_cons hstack word)]
        rfl
  | introducer introducer =>
      exact ⟨parser.names, parser.stack, .error (.illegalToken word), rfl,
        by simp [Fragment.push, hword, Except.map]⟩
  | illegal =>
      exact ⟨parser.names, parser.stack, .error (.illegalToken word), rfl,
        by simp [Fragment.push, hword, Except.map]⟩

theorem run_takeWord (word : String) (parser : Parser) :
    ∃ names stack,
      (takeWord word).run parser =
        ((Fragment.push word parser.stack).map fun _ => (), { parser with names, stack }) ∧
      ∀ next, Fragment.push word parser.stack = .ok next → stack = next := by
  obtain ⟨names, stack, result, hrun, hpush⟩ := run_fragmentOf word parser
  rw [takeWord, hpush]
  rcases result with error | fragment
  · refine ⟨names, stack, run_bind_of_error hrun _, ?_⟩
    intro next hnext
    cases hnext
  · refine ⟨names, fragment :: stack, ?_, ?_⟩
    · rw [run_bind_of_ok hrun]
      rfl
    · intro next hnext
      cases hnext
      rfl

theorem takeWords_cons (word : String) (words : List String) :
    takeWords (word :: words) = takeWords words >>= fun _ => takeWord word := by
  simp [takeWords]

theorem run_takeWords (words : List String) (parser : Parser) :
    ∃ names stack,
      (takeWords words).run parser =
        ((words.foldrM Fragment.push parser.stack).map fun _ => (),
          { parser with names, stack }) ∧
      ∀ next, words.foldrM Fragment.push parser.stack = .ok next → stack = next := by
  induction words with
  | nil =>
      refine ⟨parser.names, parser.stack, rfl, ?_⟩
      rintro next ⟨⟩
      rfl
  | cons word words ih =>
      -- Only after a success is the stack the one that the other words leave.
      obtain ⟨names, stack, hrun, hstack⟩ := ih
      rw [takeWords_cons, List.foldrM_cons]
      cases hwords : words.foldrM Fragment.push parser.stack with
      | error error =>
          rw [hwords] at hrun
          refine ⟨names, stack, run_bind_of_error hrun _, ?_⟩
          intro next hnext
          cases hnext
      | ok below =>
          rw [hwords] at hrun
          obtain rfl := hstack below hwords
          rw [run_bind_of_ok hrun]
          exact run_takeWord word { parser with names, stack }

theorem run_statementOf (introducer : Introducer) (parser : Parser) :
    ∃ stack result,
      (statementOf introducer).run parser = (result, { parser with stack }) ∧
      Statement.ofStack introducer parser.stack =
        result.bind fun statement => Statement.finish statement stack := by
  rcases introducer with _ | _
  · rw [statementOf]
    rcases hstack : parser.stack with _ | ⟨target, rest⟩
    · exact ⟨parser.stack, .error (.missingOperand _),
        run_bind_of_error (run_pop_of_nil hstack _) _, rfl⟩
    · rw [run_bind_of_ok (run_pop_of_cons hstack _)]
      rcases target with name | ⟨found, depth⟩
      · rcases rest with _ | ⟨value, rest⟩
        · exact ⟨[], .error (.missingOperand _),
            run_bind_of_error (run_pop_of_nil rfl _) _, rfl⟩
        · refine ⟨rest, .ok (.assign name value.toExpr), ?_, rfl⟩
          rw [run_bind_of_ok (run_pop_of_cons rfl _)]
          rfl
      · exact ⟨rest, .error (.notAVariable found), rfl, rfl⟩
  · rw [statementOf]
    rcases hstack : parser.stack with _ | ⟨value, rest⟩
    · exact ⟨parser.stack, .error (.missingOperand _),
        run_bind_of_error (run_pop_of_nil hstack _) _, rfl⟩
    · refine ⟨rest, .ok (.print value.toExpr), ?_, rfl⟩
      rw [run_bind_of_ok (run_pop_of_cons hstack _)]
      rfl

/-- A cluster never meets the fragments that another has left. -/
theorem run_takeCluster (cluster : Cluster) (parser : Parser) :
    ∃ names stack,
      (takeCluster cluster).run parser = (cluster.parse, { parser with names, stack }) := by
  obtain ⟨names, stack, hwords, hstack⟩ :=
    run_takeWords cluster.operands { parser with stack := [] }
  rw [takeCluster, run_bind_of_ok (run_modify _ parser), Cluster.parse, Fragment.stackOf]
  cases hfold : cluster.operands.foldrM Fragment.push [] with
  | error error =>
      rw [hfold] at hwords
      exact ⟨names, stack, run_bind_of_error hwords _⟩
  | ok operands =>
      rw [hfold] at hwords
      obtain rfl := hstack operands hfold
      rw [run_bind_of_ok hwords]
      obtain ⟨rest, result, hstatement, hofStack⟩ :=
        run_statementOf cluster.introducer { parser with names, stack }
      change ∃ names stack_1, _ = (Statement.ofStack cluster.introducer stack, _)
      rw [hofStack]
      rcases result with error | statement
      · exact ⟨names, rest, run_bind_of_error hstatement _⟩
      · refine ⟨names, rest, ?_⟩
        rw [run_bind_of_ok hstatement, run_bind_of_ok (run_get _)]
        rfl

theorem run_addCluster_of_ok {cluster : Cluster} {statement : Statement}
    (h : cluster.parse = .ok statement) (statements : Array Statement) (parser : Parser) :
    ∃ names stack,
      (addCluster statements cluster).run parser =
        (.ok (statements.push statement), { parser with names, stack }) := by
  obtain ⟨names, stack, hcluster⟩ := run_takeCluster cluster parser
  rw [h] at hcluster
  refine ⟨names, stack, run_tryCatch_of_ok ?_ _⟩
  rw [map_eq_pure_bind, run_bind_of_ok hcluster]
  rfl

theorem run_recover_of_abort (parser : Parser) (h : parser.recovery = .abort)
    (error : ParseError) : (recover error).run parser = (.error error, parser) := by
  obtain ⟨recovery, diagnostics, names, stack⟩ := parser
  cases h
  rfl

theorem run_recover_of_skip (parser : Parser) (h : parser.recovery = .skipStatement)
    (error : ParseError) :
    (recover error).run parser =
      (.ok (), { parser with diagnostics := parser.diagnostics ++ [error] }) := by
  obtain ⟨recovery, diagnostics, names, stack⟩ := parser
  cases h
  rfl

theorem run_addCluster_of_error {cluster : Cluster} {error : ParseError}
    (h : cluster.parse = .error error) (statements : Array Statement) (parser : Parser) :
    ∃ names stack,
      (addCluster statements cluster).run parser =
        (recover error >>= fun _ => pure statements).run { parser with names, stack } := by
  obtain ⟨names, stack, hcluster⟩ := run_takeCluster cluster parser
  rw [h] at hcluster
  refine ⟨names, stack, ?_⟩
  rw [addCluster, map_eq_pure_bind, run_tryCatch_of_error (run_bind_of_error hcluster _)]

theorem run_foldlM_addCluster_abort (clusters : List Cluster) (statements : Array Statement)
    (parser : Parser) (h : parser.recovery = .abort) :
    ∃ names stack,
      (clusters.foldlM addCluster statements).run parser =
        ((clusters.mapM Cluster.parse).map fun rest => statements ++ rest.toArray,
          { parser with names, stack }) := by
  induction clusters generalizing statements parser with
  | nil => exact ⟨parser.names, parser.stack, by simp [Except.map, pure, Except.pure]; rfl⟩
  | cons cluster clusters ih =>
      rw [List.foldlM_cons, List.mapM_cons]
      cases hcluster : cluster.parse with
      | error error =>
          obtain ⟨names, stack, hrun⟩ := run_addCluster_of_error hcluster statements parser
          rw [run_bind_of_error (run_recover_of_abort { parser with names, stack } h error)] at hrun
          exact ⟨names, stack, run_bind_of_error hrun _⟩
      | ok statement =>
          obtain ⟨names, stack, hrun⟩ := run_addCluster_of_ok hcluster statements parser
          obtain ⟨names, stack, hrest⟩ :=
            ih (statements.push statement) { parser with names, stack } h
          refine ⟨names, stack, ?_⟩
          rw [run_bind_of_ok hrun, hrest]
          cases clusters.mapM Cluster.parse with
          | error error => rfl
          | ok rest => simp [bind, Except.bind, Except.map, pure, Except.pure]

theorem run_foldlM_addCluster_skip (clusters : List Cluster) (statements : Array Statement)
    (parser : Parser) (h : parser.recovery = .skipStatement) :
    ∃ names stack,
      (clusters.foldlM addCluster statements).run parser =
        (.ok (statements ++ (Cluster.statements clusters).toArray),
          { parser with
            names
            stack
            diagnostics := parser.diagnostics ++ (Cluster.skipped clusters).map (·.2) }) := by
  induction clusters generalizing statements parser with
  | nil => exact ⟨parser.names, parser.stack, by simp [Cluster.statements, Cluster.skipped]; rfl⟩
  | cons cluster clusters ih =>
      rw [List.foldlM_cons]
      cases hcluster : cluster.parse with
      | error error =>
          obtain ⟨names, stack, hrun⟩ := run_addCluster_of_error hcluster statements parser
          rw [run_bind_of_ok (run_recover_of_skip { parser with names, stack } h error)] at hrun
          obtain ⟨names, stack, hrest⟩ := ih statements
            { parser with names, stack, diagnostics := parser.diagnostics ++ [error] } h
          refine ⟨names, stack, ?_⟩
          rw [run_bind_of_ok hrun, hrest]
          simp [Cluster.statements, Cluster.skipped, Cluster.error?, hcluster, Except.toOption]
      | ok statement =>
          obtain ⟨names, stack, hrun⟩ := run_addCluster_of_ok hcluster statements parser
          obtain ⟨names, stack, hrest⟩ :=
            ih (statements.push statement) { parser with names, stack } h
          refine ⟨names, stack, ?_⟩
          rw [run_bind_of_ok hrun, hrest]
          simp [Cluster.statements, Cluster.skipped, Cluster.error?, hcluster, Except.toOption]

end Parsing

namespace Parser

theorem parse_of_split_cons {words front : List String} {word : String}
    {clusters : List Cluster} (h : Cluster.split words = (word :: front, clusters))
    (parser : Parser) :
    parser.parse words = (.error (.missingIntroducer word), { parser with diagnostics := [] }) := by
  rw [parse, Parsing.takeProgram, Parsing.run_bind_of_ok (Parsing.run_modify _ _), h]
  rfl

theorem parse_abort_of_split {words : List String} {clusters : List Cluster}
    (h : Cluster.split words = ([], clusters)) (parser : Parser)
    (hrecovery : parser.recovery = .abort) :
    ∃ names stack,
      parser.parse words =
        (clusters.mapM Cluster.parse, { parser with diagnostics := [], names, stack }) := by
  obtain ⟨names, stack, hrun⟩ := Parsing.run_foldlM_addCluster_abort clusters #[]
    { parser with diagnostics := [] } hrecovery
  refine ⟨names, stack, ?_⟩
  rw [parse, Parsing.takeProgram, Parsing.run_bind_of_ok (Parsing.run_modify _ _), h]
  cases hclusters : clusters.mapM Cluster.parse with
  | error error =>
      rw [hclusters] at hrun
      exact Parsing.run_bind_of_error hrun _
  | ok program =>
      rw [hclusters] at hrun
      change (clusters.foldlM Parsing.addCluster #[] >>= _).run _ = _
      rw [Parsing.run_bind_of_ok hrun]
      simp only [Array.empty_append]
      rfl

theorem parse_skip_of_split {words : List String} {clusters : List Cluster}
    (h : Cluster.split words = ([], clusters)) (parser : Parser)
    (hrecovery : parser.recovery = .skipStatement) :
    ∃ names stack,
      parser.parse words =
        (.ok (Cluster.statements clusters),
          { parser with
            diagnostics := (Cluster.skipped clusters).map (·.2), names, stack }) := by
  obtain ⟨names, stack, hrun⟩ := Parsing.run_foldlM_addCluster_skip clusters #[]
    { parser with diagnostics := [] } hrecovery
  refine ⟨names, stack, ?_⟩
  rw [parse, Parsing.takeProgram, Parsing.run_bind_of_ok (Parsing.run_modify _ _), h]
  change (clusters.foldlM Parsing.addCluster #[] >>= _).run _ = _
  rw [Parsing.run_bind_of_ok hrun, Array.empty_append]
  rfl

@[simp] theorem recovery_parse (parser : Parser) (words : List String) :
    (parser.parse words).2.recovery = parser.recovery := by
  cases hsplit : Cluster.split words with
  | mk front clusters =>
      rcases front with _ | ⟨word, front⟩
      · cases hrecovery : parser.recovery with
        | abort =>
            obtain ⟨names, stack, hparse⟩ := parse_abort_of_split hsplit parser hrecovery
            rw [hparse, ← hrecovery]
        | skipStatement =>
            obtain ⟨names, stack, hparse⟩ := parse_skip_of_split hsplit parser hrecovery
            rw [hparse, ← hrecovery]
      · rw [parse_of_split_cons hsplit]

theorem recovery_parseAll (parser : Parser) (inputs : List (List String)) :
    (parser.parseAll inputs).recovery = parser.recovery := by
  induction inputs generalizing parser with
  | nil => rfl
  | cons words inputs ih =>
      change ((parser.parse words).2.parseAll inputs).recovery = _
      rw [ih, recovery_parse]

end Parser

end Polish
