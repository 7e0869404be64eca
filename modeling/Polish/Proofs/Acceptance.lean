import Polish.Proofs.Clustering
import Polish.Proofs.ParserState
import Polish.Proofs.Reduction

namespace Polish

namespace Cluster

theorem mapM_parse_eq_ok_iff {clusters : List Cluster} {program : Program} :
    clusters.mapM parse = .ok program ↔
      List.Forall₂ (fun cluster statement => cluster.parse = .ok statement) clusters program := by
  induction clusters generalizing program with
  | nil =>
      rw [List.mapM_nil, List.forall₂_nil_left_iff]
      constructor
      · rintro ⟨⟩
        rfl
      · rintro rfl
        rfl
  | cons cluster clusters ih =>
      rw [List.mapM_cons, List.forall₂_cons_left_iff]
      simp only [bind_eq_ok_iff, ih]
      constructor
      · rintro ⟨statement, hstatement, rest, hrest, ⟨⟩⟩
        exact ⟨statement, rest, hstatement, hrest, rfl⟩
      · rintro ⟨statement, rest, hstatement, hrest, rfl⟩
        exact ⟨statement, hstatement, rest, hrest, rfl⟩

theorem closed_of_parse {cluster : Cluster} {statement : Statement}
    (h : cluster.parse = .ok statement) : cluster.Closed := by
  obtain ⟨hspelled, -⟩ := parse_eq_ok_iff.mp h
  obtain ⟨rest, hwords, hrest⟩ := Statement.spelledBy_iff.mp hspelled
  obtain ⟨-, rfl⟩ := List.cons.inj hwords
  intro word hword
  exact Expr.not_introducer_of_inOrder hrest hword

theorem forall_closed_of_parse {clusters : List Cluster} {program : Program}
    (h : List.Forall₂ (fun cluster statement => cluster.parse = .ok statement) clusters program) :
    ∀ cluster ∈ clusters, cluster.Closed := by
  induction h with
  | nil => exact List.forall_mem_nil _
  | cons hcluster _ ih => exact List.forall_mem_cons.mpr ⟨closed_of_parse hcluster, ih⟩

end Cluster

namespace Program

/-- The clusters of a program are the spellings of its statements. -/
theorem spelledBy_iff_exists_clusters {program : Program} {words : List String} :
    (program.SpelledBy words ∧ ∀ statement ∈ program, statement.value.depth ≤ depthLimit) ↔
      ∃ clusters : List Cluster, clusters.flatMap Cluster.words = words ∧
        List.Forall₂ (fun cluster statement => cluster.parse = .ok statement)
          clusters program := by
  induction program generalizing words with
  | nil =>
      constructor
      · rintro ⟨hspelled, -⟩
        exact ⟨[], (InOrder.nil_iff.mp hspelled).symm, .nil⟩
      · rintro ⟨clusters, rfl, hclusters⟩
        rw [List.forall₂_nil_right_iff.mp hclusters]
        exact ⟨InOrder.nil_iff.mpr rfl, by simp⟩
  | cons statement program ih =>
      rw [List.forall_mem_cons, SpelledBy, InOrder.cons_iff]
      constructor
      · rintro ⟨⟨first, rest, hfirst, hrest, rfl⟩, hdepth, hdepths⟩
        obtain ⟨clusters, rfl, hclusters⟩ := ih.mp ⟨hrest, hdepths⟩
        obtain ⟨operands, rfl, -⟩ := Statement.spelledBy_iff.mp hfirst
        let cluster : Cluster := ⟨statement.introducer, operands⟩
        have hcluster : cluster.parse = .ok statement :=
          Cluster.parse_eq_ok_iff.mpr ⟨hfirst, hdepth⟩
        exact ⟨cluster :: clusters, List.flatMap_cons, .cons hcluster hclusters⟩
      · rintro ⟨_, rfl, hclusters⟩
        obtain ⟨cluster, clusters, hcluster, hrest, rfl⟩ :=
          List.forall₂_cons_right_iff.mp hclusters
        obtain ⟨hspelled, hdepth⟩ := Cluster.parse_eq_ok_iff.mp hcluster
        obtain ⟨hrest, hdepths⟩ := ih.mpr ⟨clusters, rfl, hrest⟩
        exact ⟨⟨_, _, hspelled, hrest, List.flatMap_cons⟩, hdepth, hdepths⟩

end Program

namespace Parser

theorem spelledBy_of_parse {parser : Parser} {words : List String} {program : Program}
    (hrecovery : parser.recovery = .abort) (h : (parser.parse words).1 = .ok program) :
    program.SpelledBy words ∧ ∀ statement ∈ program, statement.value.depth ≤ depthLimit := by
  rcases hsplit : Cluster.split words with ⟨_ | ⟨word, front⟩, clusters⟩
  · have hwords : clusters.flatMap Cluster.words = words := by
      simpa [hsplit] using Cluster.append_flatMap_split words
    obtain ⟨names, stack, hparse⟩ := parse_abort_of_split hsplit parser hrecovery
    rw [hparse] at h
    exact Program.spelledBy_iff_exists_clusters.mpr
      ⟨clusters, hwords, Cluster.mapM_parse_eq_ok_iff.mp h⟩
  · rw [parse_of_split_cons hsplit] at h
    cases h

/-- A parser that stops at errors, whatever it has parsed before, gives a program
just for the spellings of that program, and only if no expression has more
levels than the limit. -/
theorem parse_abort_eq_ok_iff (parser : Parser) (words : List String) (program : Program) :
    (({ parser with recovery := .abort } : Parser).parse words).1 = .ok program ↔
      program.SpelledBy words ∧
        ∀ statement ∈ program, statement.value.depth ≤ depthLimit := by
  constructor
  · intro h
    exact spelledBy_of_parse rfl h
  · intro h
    obtain ⟨clusters, rfl, hclusters⟩ := Program.spelledBy_iff_exists_clusters.mp h
    have hclosed := Cluster.forall_closed_of_parse hclusters
    obtain ⟨names, stack, hparse⟩ := parse_abort_of_split (Cluster.split_flatMap hclosed)
      { parser with recovery := .abort } rfl
    rw [hparse]
    exact Cluster.mapM_parse_eq_ok_iff.mpr hclusters

end Parser

end Polish
