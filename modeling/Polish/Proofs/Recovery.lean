import Polish.Proofs.Acceptance

namespace Polish

/-- The error of a word list that is not a program. -/
def Program.error? (words : List String) : Option ParseError :=
  match Program.ofWords words with
  | .ok _ => none
  | .error error => some error

namespace Cluster

/-- A cluster on its own is a program of at most one statement. -/
theorem ofWords_words {cluster : Cluster} (h : cluster.Closed) :
    Program.ofWords cluster.words = cluster.parse.map fun statement => [statement] := by
  obtain ⟨names, stack, hparse⟩ := Parser.parse_abort_of_split (split_words h) {} rfl
  rw [Program.ofWords, hparse, List.mapM_cons, List.mapM_nil]
  cases cluster.parse with
  | error error => rfl
  | ok statement => rfl

theorem map_snd_skipped (clusters : List Cluster) :
    (skipped clusters).map (·.2) = clusters.filterMap error? := by
  rw [skipped, List.map_filterMap]
  congr 1
  funext cluster
  cases cluster.error? with
  | none => rfl
  | some error => rfl

theorem flatten_ofWords {clusters : List Cluster} (h : ∀ cluster ∈ clusters, cluster.Closed) :
    ((clusters.map words).filterMap fun part => (Program.ofWords part).toOption).flatten =
      statements clusters := by
  induction clusters with
  | nil => rfl
  | cons cluster clusters ih =>
      obtain ⟨hcluster, hclusters⟩ := List.forall_mem_cons.mp h
      rw [List.map_cons, List.filterMap_cons, ofWords_words hcluster]
      cases hparse : cluster.parse with
      | error error => simpa [statements, hparse, Except.map, Except.toOption] using ih hclusters
      | ok statement => simpa [statements, hparse, Except.map, Except.toOption] using ih hclusters

theorem filterMap_error? {clusters : List Cluster} (h : ∀ cluster ∈ clusters, cluster.Closed) :
    (clusters.map words).filterMap Program.error? = clusters.filterMap error? := by
  rw [List.filterMap_map]
  refine List.filterMap_congr ?_
  intro cluster hcluster
  rw [Function.comp_apply, Program.error?, ofWords_words (h cluster hcluster), error?]
  cases cluster.parse with
  | error error => rfl
  | ok statement => rfl

theorem length_statements_add_length_errors (clusters : List Cluster) :
    (statements clusters).length + (clusters.filterMap error?).length = clusters.length := by
  induction clusters with
  | nil => rfl
  | cons cluster clusters ih =>
      cases hparse : cluster.parse with
      | error error =>
          simp only [statements, List.filterMap_cons, hparse, error?, Except.toOption,
            List.length_cons] at ih ⊢
          omega
      | ok statement =>
          simp only [statements, List.filterMap_cons, hparse, error?, Except.toOption,
            List.length_cons] at ih ⊢
          omega

theorem mapM_parse_eq_ok_iff_errors {clusters : List Cluster} {program : Program} :
    clusters.mapM parse = .ok program ↔
      statements clusters = program ∧ clusters.filterMap error? = [] := by
  induction clusters generalizing program with
  | nil => simp [statements, pure, Except.pure]
  | cons cluster clusters ih =>
      rw [mapM_parse_eq_ok_iff, List.forall₂_cons_left_iff]
      cases hparse : cluster.parse with
      | error error => simp [error?, hparse]
      | ok statement =>
          simp only [← mapM_parse_eq_ok_iff, ih, statements, List.filterMap_cons, hparse, error?,
            Except.toOption, Except.ok.injEq]
          constructor
          · rintro ⟨_, _, rfl, ⟨rfl, herrors⟩, rfl⟩
            exact ⟨rfl, herrors⟩
          · rintro ⟨rfl, herrors⟩
            exact ⟨_, _, rfl, ⟨rfl, herrors⟩, rfl⟩

theorem head?_errors_of_mapM_parse {clusters : List Cluster} {error : ParseError}
    (h : clusters.mapM parse = .error error) :
    (clusters.filterMap error?).head? = some error := by
  induction clusters with
  | nil => cases h
  | cons cluster clusters ih =>
      rw [List.mapM_cons, bind_eq_error_iff] at h
      rcases h with hparse | ⟨statement, hparse, h⟩
      · simp [error?, hparse]
      · rw [bind_eq_error_iff] at h
        rcases h with hrest | ⟨rest, -, ⟨⟩⟩
        simpa [error?, hparse] using ih hrest

theorem mapM_parse_filter (clusters : List Cluster) :
    (clusters.filter fun cluster => cluster.parse.isOk).mapM parse =
      .ok (statements clusters) := by
  rw [mapM_parse_eq_ok_iff]
  induction clusters with
  | nil => exact .nil
  | cons cluster clusters ih =>
      cases hparse : cluster.parse with
      | error error =>
          simpa [statements, hparse, Except.isOk, Except.toBool, Except.toOption] using ih
      | ok statement =>
          simpa [statements, hparse, Except.isOk, Except.toBool, Except.toOption] using ih

theorem filter_isOk_ofWords {clusters : List Cluster}
    (h : ∀ cluster ∈ clusters, cluster.Closed) :
    (clusters.map words).filter (fun part => (Program.ofWords part).isOk) =
      (clusters.filter fun cluster => cluster.parse.isOk).map words := by
  rw [List.filter_map]
  congr 1
  refine List.filter_congr ?_
  intro cluster hcluster
  rw [Function.comp_apply, ofWords_words (h cluster hcluster)]
  cases cluster.parse with
  | error error => rfl
  | ok statement => rfl

end Cluster

namespace Parser

/-- What is left of closed clusters without those that do not parse is cut into
the others again. -/
theorem parse_abort_of_filter {clusters : List Cluster}
    (h : ∀ cluster ∈ clusters, cluster.Closed) (parser : Parser)
    (hrecovery : parser.recovery = .abort) :
    (parser.parse ((clusters.map Cluster.words).filter fun part =>
      (Program.ofWords part).isOk).flatten).1 = .ok (Cluster.statements clusters) := by
  have hclosed : ∀ cluster ∈ clusters.filter fun cluster => cluster.parse.isOk,
      cluster.Closed := by
    intro cluster hcluster
    exact h cluster (List.mem_of_mem_filter hcluster)
  obtain ⟨names, stack, hparse⟩ :=
    parse_abort_of_split (Cluster.split_flatMap hclosed) parser hrecovery
  rw [Cluster.filter_isOk_ofWords h, ← List.flatMap_def, hparse]
  exact Cluster.mapM_parse_filter clusters

/-- Whatever a parser in skip mode has parsed before, it cuts a list that opens a
statement in the only possible way, gives the statements of those parts that
are programs on their own, keeps the errors of the others, and has one or the
other for each introducer. -/
theorem parse_skip_local (history : List (List String)) (words : List String) :
    let parsed := (({ recovery := .skipStatement } : Parser).parseAll history).parse words
    (OpensStatement words →
      ∃ parts program,
        Clustering words parts ∧ (∀ others, Clustering words others → others = parts) ∧
        parsed.1 = .ok program ∧
        program =
          (parts.filterMap fun part => (Program.ofWords part).toOption).flatten ∧
        parsed.2.diagnostics = parts.filterMap Program.error? ∧
        program.length + parsed.2.diagnostics.length =
          words.countP fun word => (Token.ofWord word).isIntroducer) ∧
    ∀ word ∈ words.head?, (Token.ofWord word).isIntroducer = false →
      parsed.1 = .error (.missingIntroducer word) ∧ parsed.2.diagnostics = [] := by
  intro parsed
  have hrecovery := recovery_parseAll { recovery := .skipStatement } history
  constructor
  · intro hopens
    have hfront := Cluster.fst_split_eq_nil_iff.mpr hopens
    have hsplit : Cluster.split words = ([], (Cluster.split words).2) := Prod.ext hfront rfl
    have hclosed := Cluster.closed_of_split hsplit
    obtain ⟨names, stack, hparse⟩ := parse_skip_of_split hsplit _ hrecovery
    have hparsed : parsed = _ := hparse
    refine ⟨(Cluster.split words).2.map Cluster.words,
      Cluster.statements (Cluster.split words).2,
      Clustering.iff_split.mpr ⟨hfront, rfl⟩,
      fun others hothers => (Clustering.iff_split.mp hothers).2, ?_, ?_, ?_, ?_⟩
    · rw [hparsed]
    · exact (Cluster.flatten_ofWords hclosed).symm
    · rw [hparsed, Cluster.filterMap_error? hclosed]
      exact Cluster.map_snd_skipped _
    · rw [hparsed, ← Cluster.length_split, ← Cluster.length_statements_add_length_errors,
        ← Cluster.map_snd_skipped]
  · intro word hword hnot
    obtain ⟨rest, rfl⟩ := List.head?_eq_some_iff.mp hword
    have hsplit : Cluster.split (word :: rest) =
        (word :: (Cluster.split rest).1, (Cluster.split rest).2) :=
      Cluster.pushWord_of_not_introducer hnot _
    have hparsed : parsed = _ := parse_of_split_cons hsplit _
    rw [hparsed]
    exact ⟨rfl, rfl⟩

example :
    let parser := ({ recovery := .skipStatement } : Parser).parseAll
      [["@", "1", "2"], ["@", "+"]]
    let parsed := parser.parse [":=", "x", "2", "@", "%", "x", "@", "x"]
    parsed.1 = .ok [.assign "x" (.const 2), .print (.var "x")] ∧
      parsed.2.diagnostics = [.illegalToken "%"] := by
  decide

/-- A parser that stops at errors and one that skips give the same program when
neither meets an error, and the first is stopped by the first error that the
second keeps.  A list that opens no statement stops both.  Without the parts
that were left out, the list is a program, the one that skipping gave. -/
theorem parse_abort_skip_agree (first second : Parser) (words : List String) :
    let aborting := ({ first with recovery := .abort } : Parser)
    let aborted := aborting.parse words
    let skipped := ({ second with recovery := .skipStatement } : Parser).parse words
    (∀ program, aborted.1 = .ok program ↔
      skipped.1 = .ok program ∧ skipped.2.diagnostics = []) ∧
    (∀ error, aborted.1 = .error error →
      skipped.1 = .error error ∨
        (∃ program, skipped.1 = .ok program) ∧ skipped.2.diagnostics.head? = some error) ∧
    ((∃ error, skipped.1 = .error error) ↔ ¬ OpensStatement words) ∧
    (∀ program, skipped.1 = .ok program →
      ∃ parts, Clustering words parts ∧
        skipped.2.diagnostics = parts.filterMap Program.error? ∧
        (aborting.parse
          (parts.filter fun part => (Program.ofWords part).isOk).flatten).1 = .ok program) ∧
    aborted.2.diagnostics = [] := by
  intro aborting aborted skipped
  rcases hsplit : Cluster.split words with ⟨_ | ⟨word, front⟩, clusters⟩
  · have hfront : (Cluster.split words).1 = [] := by rw [hsplit]
    have hclosed := Cluster.closed_of_split hsplit
    obtain ⟨names, stack, hparse⟩ := parse_abort_of_split hsplit aborting rfl
    have haborted : aborted = _ := hparse
    obtain ⟨names, stack, hparse⟩ := parse_skip_of_split hsplit
      { second with recovery := .skipStatement } rfl
    have hskipped : skipped = _ := hparse
    rw [haborted, hskipped, Cluster.map_snd_skipped]
    refine ⟨?_, ?_, ?_, ?_, rfl⟩
    · intro program
      rw [Cluster.mapM_parse_eq_ok_iff_errors, Except.ok.injEq]
    · intro error herror
      exact Or.inr ⟨⟨_, rfl⟩, Cluster.head?_errors_of_mapM_parse herror⟩
    · have hopens := Cluster.fst_split_eq_nil_iff.mp hfront
      exact iff_of_false (by rintro ⟨error, ⟨⟩⟩) (not_not.mpr hopens)
    · rintro program ⟨⟩
      refine ⟨clusters.map Cluster.words, Clustering.iff_split.mpr (by simp [hsplit]),
        (Cluster.filterMap_error? hclosed).symm, ?_⟩
      exact parse_abort_of_filter hclosed aborting rfl
  · have hnot : ¬ OpensStatement words := by
      rw [← Cluster.fst_split_eq_nil_iff, hsplit]
      simp
    have haborted : aborted = _ := parse_of_split_cons hsplit _
    have hskipped : skipped = _ := parse_of_split_cons hsplit _
    rw [haborted, hskipped]
    refine ⟨?_, ?_, ?_, ?_, rfl⟩
    · intro program
      exact iff_of_false (by rintro ⟨⟩) (by rintro ⟨⟨⟩, -⟩)
    · intro error herror
      exact Or.inl herror
    · exact iff_of_true ⟨_, rfl⟩ hnot
    · rintro program ⟨⟩

end Parser

end Polish
