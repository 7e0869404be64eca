import Polish.Proofs.Lexicon
import Polish.Proofs.Recovery
import Polish.Proofs.Spacing

namespace Polish

/-- A name that can be written as a word. -/
def IsName (name : String) : Prop :=
  isIdentifier name = true ∧ ∀ c ∈ name.toList, isBlank c = false

instance (name : String) : Decidable (IsName name) :=
  @instDecidableAnd _ _ inferInstance (List.decidableBAll _ name.toList)

theorem IsName.isWord {name : String} (h : IsName name) : IsWord name := by
  obtain ⟨hidentifier, hchars⟩ := h
  refine ⟨?_, hchars⟩
  rintro rfl
  cases hidentifier

namespace Expr

/-- The variables that an expression reads. -/
def names : Expr → List String
  | const _ => []
  | var name => [name]
  | binary _ left right => left.names ++ right.names
  | unary _ operand => operand.names

def Named (e : Expr) : Prop :=
  ∀ name ∈ e.names, IsName name

instance (e : Expr) : Decidable e.Named :=
  List.decidableBAll _ e.names

theorem named_binary_iff {op : BinaryOp} {left right : Expr} :
    (binary op left right).Named ↔ left.Named ∧ right.Named :=
  List.forall_mem_append

theorem SpelledBy.mem_names {e : Expr} {words : List String} (h : e.SpelledBy words)
    {name : String} (hname : name ∈ e.names) :
    name ∈ words ∧ Token.ofWord name = .identifier name := by
  induction h with
  | const _ => cases hname
  | var h =>
      obtain rfl := List.mem_singleton.mp hname
      exact ⟨hname, h⟩
  | binary _ _ ihLeft ihRight =>
      rcases List.mem_append.mp hname with hname | hname
      · obtain ⟨hmem, hword⟩ := ihLeft hname
        exact ⟨List.mem_cons_of_mem _ (List.mem_append_left _ hmem), hword⟩
      · obtain ⟨hmem, hword⟩ := ihRight hname
        exact ⟨List.mem_cons_of_mem _ (List.mem_append_right _ hmem), hword⟩
  | unary _ ih =>
      obtain ⟨hmem, hword⟩ := ih hname
      exact ⟨List.mem_cons_of_mem _ hmem, hword⟩

end Expr

namespace Statement

/-- The target of a statement, if it has one, and the variables that it reads. -/
def names : Statement → List String
  | assign target value => target :: value.names
  | print value => value.names

def Named (statement : Statement) : Prop :=
  ∀ name ∈ statement.names, IsName name

instance (statement : Statement) : Decidable statement.Named :=
  List.decidableBAll _ statement.names

theorem named_assign_iff {target : String} {value : Expr} :
    (assign target value).Named ↔ IsName target ∧ value.Named :=
  List.forall_mem_cons

theorem SpelledBy.mem_names {statement : Statement} {words : List String}
    (h : statement.SpelledBy words) {name : String} (hname : name ∈ statement.names) :
    name ∈ words ∧ Token.ofWord name = .identifier name := by
  cases h with
  | assign htarget hvalue =>
      rcases List.mem_cons.mp hname with rfl | hname
      · exact ⟨by simp, htarget⟩
      · obtain ⟨hmem, hword⟩ := hvalue.mem_names hname
        exact ⟨by simp [hmem], hword⟩
  | print hvalue =>
      obtain ⟨hmem, hword⟩ := hvalue.mem_names hname
      exact ⟨List.mem_cons_of_mem _ hmem, hword⟩

end Statement

def Program.Named (program : Program) : Prop :=
  ∀ statement ∈ program, statement.Named

instance (program : Program) : Decidable program.Named :=
  List.decidableBAll _ program

namespace Parser

/-- Every statement that a parse gives is that of a cluster. -/
theorem exists_cluster_of_parse {parser : Parser} {words : List String} {program : Program}
    (h : (parser.parse words).1 = .ok program) {statement : Statement}
    (hstatement : statement ∈ program) :
    ∃ cluster ∈ (Cluster.split words).2, cluster.parse = .ok statement := by
  rcases hsplit : Cluster.split words with ⟨_ | ⟨word, front⟩, clusters⟩
  · have hprogram : program = Cluster.statements clusters := by
      cases hrecovery : parser.recovery with
      | abort =>
          obtain ⟨names, stack, hparse⟩ := parse_abort_of_split hsplit parser hrecovery
          rw [hparse] at h
          exact (Cluster.mapM_parse_eq_ok_iff_errors.mp h).1.symm
      | skipStatement =>
          obtain ⟨names, stack, hparse⟩ := parse_skip_of_split hsplit parser hrecovery
          rw [hparse] at h
          exact (Except.ok.inj h).symm
    rw [hprogram, Cluster.statements, List.mem_filterMap] at hstatement
    obtain ⟨cluster, hcluster, hparse⟩ := hstatement
    refine ⟨cluster, hcluster, ?_⟩
    cases hresult : cluster.parse with
    | error error => simp [hresult, Except.toOption] at hparse
    | ok found =>
        rw [hresult] at hparse
        exact congrArg Except.ok (Option.some.inj hparse)
  · rw [parse_of_split_cons hsplit] at h
    cases h

theorem exists_spelledBy_of_parse {parser : Parser} {words : List String} {program : Program}
    (h : (parser.parse words).1 = .ok program) {statement : Statement}
    (hstatement : statement ∈ program) :
    ∃ part, part ⊆ words ∧ statement.SpelledBy part ∧ statement.value.depth ≤ depthLimit := by
  obtain ⟨cluster, hcluster, hparse⟩ := exists_cluster_of_parse h hstatement
  obtain ⟨hspelled, hdepth⟩ := Cluster.parse_eq_ok_iff.mp hparse
  refine ⟨cluster.words, ?_, hspelled, hdepth⟩
  intro word hword
  rw [← Cluster.append_flatMap_split words]
  exact List.mem_append_right _ (List.mem_flatMap.mpr ⟨cluster, hcluster, hword⟩)

theorem named_of_parse_words {parser : Parser} {text : String} {program : Program}
    (h : (parser.parse (words text)).1 = .ok program) : program.Named := by
  intro statement hstatement name hname
  obtain ⟨part, hpart, hspelled, -⟩ := exists_spelledBy_of_parse h hstatement
  obtain ⟨hmem, hword⟩ := hspelled.mem_names hname
  have hisWord := isWord_of_mem_words (hpart hmem)
  exact ⟨Token.ofWord_eq_identifier_iff.mp hword, hisWord.2⟩

end Parser

end Polish
