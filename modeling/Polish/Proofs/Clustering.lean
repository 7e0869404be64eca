import Mathlib.Data.List.Basic
import Polish.Cluster

namespace Polish

/-- The list is empty or its first word opens a statement. -/
def OpensStatement (words : List String) : Prop :=
  ∀ word ∈ words.head?, (Token.ofWord word).isIntroducer = true

namespace Cluster

def Closed (cluster : Cluster) : Prop :=
  ∀ word ∈ cluster.operands, (Token.ofWord word).isIntroducer = false

theorem pushWord_introducer (introducer : Introducer) (cut : List String × List Cluster) :
    pushWord introducer.word cut = ([], ⟨introducer, cut.1⟩ :: cut.2) := by
  simp [pushWord]

theorem pushWord_of_not_introducer {word : String} (h : (Token.ofWord word).isIntroducer = false)
    (cut : List String × List Cluster) : pushWord word cut = (word :: cut.1, cut.2) := by
  simp only [pushWord]
  split
  · rename_i introducer hword
    simp [hword, Token.isIntroducer] at h
  · rfl

theorem split_append {front : List String}
    (h : ∀ word ∈ front, (Token.ofWord word).isIntroducer = false) (words : List String) :
    split (front ++ words) = (front ++ (split words).1, (split words).2) := by
  induction front with
  | nil => rfl
  | cons word front ih =>
      rw [List.cons_append, split_cons, ih fun w hw => h w (List.mem_cons_of_mem _ hw)]
      exact pushWord_of_not_introducer (h word List.mem_cons_self) _

theorem split_append_flatMap {front : List String} {clusters : List Cluster}
    (hfront : ∀ word ∈ front, (Token.ofWord word).isIntroducer = false)
    (hclusters : ∀ cluster ∈ clusters, cluster.Closed) :
    split (front ++ clusters.flatMap words) = (front, clusters) := by
  induction clusters generalizing front with
  | nil => simpa using split_append hfront []
  | cons cluster clusters ih =>
      have hrest := ih (hclusters cluster List.mem_cons_self)
        fun c hc => hclusters c (List.mem_cons_of_mem _ hc)
      rw [split_append hfront, List.flatMap_cons, words, List.cons_append, split_cons, hrest,
        pushWord_introducer]
      simp

theorem split_flatMap {clusters : List Cluster} (h : ∀ cluster ∈ clusters, cluster.Closed) :
    split (clusters.flatMap words) = ([], clusters) := by
  have hsplit := split_append_flatMap (List.forall_mem_nil _) h
  rwa [List.nil_append] at hsplit

theorem split_words {cluster : Cluster} (h : cluster.Closed) :
    split cluster.words = ([], [cluster]) := by
  have hsplit := split_flatMap (List.forall_mem_singleton.mpr h)
  rwa [List.flatMap_singleton] at hsplit

theorem append_flatMap_split (list : List String) :
    (split list).1 ++ (split list).2.flatMap words = list := by
  induction list with
  | nil => rfl
  | cons word list ih =>
      rw [split_cons]
      rcases Token.introducer_or_not word with ⟨introducer, rfl⟩ | hword
      · rw [pushWord_introducer, List.nil_append, List.flatMap_cons, words,
          List.cons_append, ih]
      · rw [pushWord_of_not_introducer hword, List.cons_append, ih]

theorem not_introducer_of_split (list : List String) :
    (∀ word ∈ (split list).1, (Token.ofWord word).isIntroducer = false) ∧
      ∀ cluster ∈ (split list).2, cluster.Closed := by
  induction list with
  | nil => simp
  | cons word list ih =>
      rw [split_cons]
      rcases Token.introducer_or_not word with ⟨introducer, rfl⟩ | hword
      · rw [pushWord_introducer]
        exact ⟨by simp, List.forall_mem_cons.mpr ih⟩
      · rw [pushWord_of_not_introducer hword]
        exact ⟨List.forall_mem_cons.mpr ⟨hword, ih.1⟩, ih.2⟩

theorem closed_of_split {list front : List String} {clusters : List Cluster}
    (h : split list = (front, clusters)) : ∀ cluster ∈ clusters, cluster.Closed := by
  have hclosed := (not_introducer_of_split list).2
  rwa [h] at hclosed

theorem length_split (list : List String) :
    (split list).2.length = list.countP fun word => (Token.ofWord word).isIntroducer := by
  induction list with
  | nil => rfl
  | cons word list ih =>
      rw [split_cons, List.countP_cons, ← ih]
      rcases Token.introducer_or_not word with ⟨introducer, rfl⟩ | hword
      · simp [pushWord_introducer]
      · simp [pushWord_of_not_introducer hword, hword]

theorem fst_split_eq_nil_iff {list : List String} :
    (split list).1 = [] ↔ OpensStatement list := by
  rcases list with _ | ⟨word, list⟩
  · simp [OpensStatement]
  · rw [split_cons]
    rcases Token.introducer_or_not word with ⟨introducer, rfl⟩ | hword
    · simp [OpensStatement, pushWord_introducer]
    · simp [OpensStatement, pushWord_of_not_introducer hword, hword]

end Cluster

/-- A cut of a word list into consecutive parts, each with an introducer at its
head and no other. -/
structure Clustering (words : List String) (parts : List (List String)) : Prop where
  flatten_eq : parts.flatten = words
  opened : ∀ part ∈ parts, ∃ (introducer : Introducer) (operands : List String),
    part = introducer.word :: operands ∧
      ∀ word ∈ operands, (Token.ofWord word).isIntroducer = false

namespace Clustering

theorem exists_clusters {words : List String} {parts : List (List String)}
    (h : Clustering words parts) :
    ∃ clusters : List Cluster,
      (∀ cluster ∈ clusters, cluster.Closed) ∧ parts = clusters.map Cluster.words := by
  obtain ⟨-, hopened⟩ := h
  induction parts with
  | nil => exact ⟨[], by simp, rfl⟩
  | cons part parts ih =>
      obtain ⟨introducer, operands, rfl, hoperands⟩ := hopened part List.mem_cons_self
      obtain ⟨clusters, hclosed, rfl⟩ := ih fun p hp => hopened p (List.mem_cons_of_mem _ hp)
      exact ⟨⟨introducer, operands⟩ :: clusters,
        List.forall_mem_cons.mpr ⟨hoperands, hclosed⟩, rfl⟩

/-- There is no clustering but the one that cutting finds. -/
theorem iff_split {words : List String} {parts : List (List String)} :
    Clustering words parts ↔
      (Cluster.split words).1 = [] ∧ parts = (Cluster.split words).2.map Cluster.words := by
  constructor
  · intro h
    obtain ⟨clusters, hclosed, rfl⟩ := h.exists_clusters
    have hsplit : Cluster.split words = ([], clusters) := by
      rw [← h.flatten_eq, ← List.flatMap_def]
      exact Cluster.split_flatMap hclosed
    simp [hsplit]
  · rintro ⟨hfront, rfl⟩
    constructor
    · rw [← List.flatMap_def]
      simpa [hfront] using Cluster.append_flatMap_split words
    · intro part hpart
      obtain ⟨cluster, hcluster, rfl⟩ := List.mem_map.mp hpart
      exact ⟨cluster.introducer, cluster.operands, rfl,
        (Cluster.not_introducer_of_split words).2 cluster hcluster⟩

end Clustering

end Polish
