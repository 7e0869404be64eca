namespace Polish

variable {ε α β : Type}

@[simp] theorem ok_bind (a : α) (f : α → Except ε β) : (Except.ok a >>= f) = f a :=
  rfl

@[simp] theorem error_bind (error : ε) (f : α → Except ε β) :
    (Except.error error >>= f) = .error error :=
  rfl

theorem bind_eq_ok_iff {x : Except ε α} {f : α → Except ε β} {b : β} :
    x >>= f = .ok b ↔ ∃ a, x = .ok a ∧ f a = .ok b := by
  rcases x with error | a
  · simp
  · simp

theorem bind_eq_error_iff {x : Except ε α} {f : α → Except ε β} {error : ε} :
    x >>= f = .error error ↔ x = .error error ∨ ∃ a, x = .ok a ∧ f a = .error error := by
  rcases x with first | a
  · simp
  · simp

@[simp] theorem mapError_ok {ε' : Type} (a : α) (f : ε → ε') :
    (Except.ok a).mapError f = .ok a :=
  rfl

theorem mapError_eq_ok_iff {ε' : Type} {f : ε → ε'} {x : Except ε α} {a : α} :
    x.mapError f = .ok a ↔ x = .ok a := by
  cases x with
  | error error => exact iff_of_false (by rintro ⟨⟩) (by rintro ⟨⟩)
  | ok value => rw [mapError_ok, Except.ok.injEq, Except.ok.injEq]

theorem isOk_eq_true_iff {x : Except ε α} : x.isOk = true ↔ ∃ a, x = .ok a := by
  cases x with
  | error error => exact iff_of_false Bool.false_ne_true (by rintro ⟨_, ⟨⟩⟩)
  | ok value => exact iff_of_true rfl ⟨value, rfl⟩

section Fold

variable {σ : Type} {f : σ → α → Except ε σ} {start : σ} {xs : List α} {k : Nat} {error : ε}

/-- All elements before the one with index `k` can be folded in, and at that one
`f` gives `error`. -/
def StopsAt (f : σ → α → Except ε σ) (start : σ) (xs : List α) (k : Nat) (error : ε) : Prop :=
  ∃ reached x, (xs.take k).foldlM f start = .ok reached ∧ xs[k]? = some x ∧
    f reached x = .error error

theorem StopsAt.foldlM_take_append (h : StopsAt f start xs k error) (rest : List α) :
    (xs.take (k + 1) ++ rest).foldlM f start = .error error := by
  obtain ⟨reached, x, hreached, hx, hstop⟩ := h
  rw [List.take_add_one, hx, Option.toList_some, List.append_assoc, List.foldlM_append, hreached,
    ok_bind, List.singleton_append, List.foldlM_cons, hstop, error_bind]

theorem stopsAt_zero {x : α} (h : f start x = .error error) : StopsAt f start (x :: xs) 0 error :=
  ⟨start, x, rfl, rfl, h⟩

theorem StopsAt.cons {next : σ} {x : α} (h : StopsAt f next xs k error)
    (hx : f start x = .ok next) : StopsAt f start (x :: xs) (k + 1) error := by
  obtain ⟨reached, y, hreached, hy, hstop⟩ := h
  refine ⟨reached, y, ?_, hy, hstop⟩
  rw [List.take_succ_cons, List.foldlM_cons, hx, ok_bind, hreached]

theorem foldlM_eq_error_iff :
    xs.foldlM f start = .error error ↔ ∃ k, StopsAt f start xs k error := by
  constructor
  · intro h
    induction xs generalizing start with
    | nil => cases h
    | cons x xs ih =>
        rw [List.foldlM_cons] at h
        rcases bind_eq_error_iff.mp h with hx | ⟨next, hx, hrest⟩
        · exact ⟨0, stopsAt_zero hx⟩
        · obtain ⟨k, hstops⟩ := ih hrest
          exact ⟨k + 1, hstops.cons hx⟩
  · rintro ⟨k, h⟩
    rw [← List.take_append_drop (k + 1) xs]
    exact h.foldlM_take_append (xs.drop (k + 1))

theorem exists_foldlM_take_eq_ok {final : σ} (h : xs.foldlM f start = .ok final) (k : Nat) :
    ∃ reached, (xs.take k).foldlM f start = .ok reached := by
  rw [← List.take_append_drop k xs, List.foldlM_append] at h
  obtain ⟨reached, hreached, -⟩ := bind_eq_ok_iff.mp h
  exact ⟨reached, hreached⟩

theorem stopsAt_take_iff {n : Nat} :
    StopsAt f start (xs.take n) k error ↔ k < n ∧ StopsAt f start xs k error := by
  by_cases hk : k < n
  · have htake : (xs.take n).take k = xs.take k := by
      rw [List.take_take, Nat.min_eq_left (Nat.le_of_lt hk)]
    have hget : (xs.take n)[k]? = xs[k]? := List.getElem?_take_of_lt hk
    rw [StopsAt, htake, hget]
    exact ⟨fun h => ⟨hk, h⟩, fun h => h.2⟩
  · have hget : (xs.take n)[k]? = none := by
      rw [List.getElem?_take, if_neg hk]
    rw [StopsAt, hget]
    refine iff_of_false ?_ fun h => hk h.1
    rintro ⟨_, _, _, ⟨⟩, _⟩

/-- A fold stops between two indices just if it gets to the first and not to the second. -/
theorem exists_stopsAt_between_iff {first last : Nat} :
    (∃ k, first ≤ k ∧ k < last ∧ StopsAt f start xs k error) ↔
      (∃ reached, (xs.take first).foldlM f start = .ok reached) ∧
        (xs.take last).foldlM f start = .error error := by
  constructor
  · rintro ⟨k, hfirst, hlast, hstops⟩
    obtain ⟨reached, x, hreached, -, -⟩ := id hstops
    have hreaches := exists_foldlM_take_eq_ok hreached first
    rw [List.take_take, Nat.min_eq_left hfirst] at hreaches
    exact ⟨hreaches, foldlM_eq_error_iff.mpr ⟨k, stopsAt_take_iff.mpr ⟨hlast, hstops⟩⟩⟩
  · rintro ⟨⟨reached, hreached⟩, herror⟩
    obtain ⟨k, hk⟩ := foldlM_eq_error_iff.mp herror
    obtain ⟨hlast, hstops⟩ := stopsAt_take_iff.mp hk
    rcases Nat.lt_or_ge k first with hlt | hfirst
    · have hfails := foldlM_eq_error_iff.mpr ⟨k, stopsAt_take_iff.mpr ⟨hlt, hstops⟩⟩
      rw [hreached] at hfails
      cases hfails
    · exact ⟨k, hfirst, hlast, hstops⟩

theorem stopsAt_iff_take :
    StopsAt f start xs k error ↔
      (∃ reached, (xs.take k).foldlM f start = .ok reached) ∧
        (xs.take (k + 1)).foldlM f start = .error error := by
  rw [← exists_stopsAt_between_iff]
  constructor
  · exact fun h => ⟨k, Nat.le_refl k, Nat.lt_succ_self k, h⟩
  · rintro ⟨j, hle, hlt, h⟩
    obtain rfl : j = k := Nat.le_antisymm (Nat.le_of_lt_succ hlt) hle
    exact h

end Fold

section Parallel

variable {ε' α' β' σ τ : Type} {E : ε → ε' → Prop}

/-- Both computations succeed, or both fail, and what they give is related. -/
def Parallel (E : ε → ε' → Prop) (R : α → α' → Prop) : Except ε α → Except ε' α' → Prop
  | .ok a, .ok a' => R a a'
  | .error error, .error error' => E error error'
  | _, _ => False

theorem parallel_iff {R : α → α' → Prop} {x : Except ε α} {x' : Except ε' α'} :
    Parallel E R x x' ↔
      (∃ a a', x = .ok a ∧ x' = .ok a' ∧ R a a') ∨
        ∃ error error', x = .error error ∧ x' = .error error' ∧ E error error' := by
  rcases x with error | a <;> rcases x' with error' | a' <;> simp [Parallel]

theorem Parallel.bind {R : α → α' → Prop} {S : β → β' → Prop} {x : Except ε α}
    {x' : Except ε' α'} {f : α → Except ε β} {f' : α' → Except ε' β'} (hx : Parallel E R x x')
    (hf : ∀ a a', x = .ok a → x' = .ok a' → R a a' → Parallel E S (f a) (f' a')) :
    Parallel E S (x >>= f) (x' >>= f') := by
  rcases parallel_iff.mp hx with ⟨a, a', rfl, rfl, ha⟩ | ⟨error, error', rfl, rfl, herror⟩
  · exact hf a a' rfl rfl ha
  · exact herror

/-- Folds over the same list stay in step.  If they fail, they do so at the same
element. -/
theorem foldlM_parallel {R : σ → τ → Prop} {f : σ → α → Except ε σ} {g : τ → α → Except ε' τ}
    {xs : List α} {s : σ} {t : τ}
    (hstep : ∀ x ∈ xs, ∀ s t, R s t → Parallel E R (f s x) (g t x)) (h : R s t) :
    Parallel
      (fun error error' =>
        E error error' ∧ ∃ k, StopsAt f s xs k error ∧ StopsAt g t xs k error')
      R (xs.foldlM f s) (xs.foldlM g t) := by
  induction xs generalizing s t with
  | nil => exact h
  | cons x xs ih =>
      rw [List.foldlM_cons, List.foldlM_cons, parallel_iff]
      rcases parallel_iff.mp (hstep x List.mem_cons_self s t h) with
        ⟨s', t', hf, hg, hnext⟩ | ⟨error, error', hf, hg, herror⟩
      · rw [hf, hg, ok_bind, ok_bind]
        have hrest := ih (fun y hy => hstep y (List.mem_cons_of_mem x hy)) hnext
        rcases parallel_iff.mp hrest with
          hok | ⟨error, error', herror, herror', hE, k, hstops, hstops'⟩
        · exact Or.inl hok
        · exact Or.inr ⟨error, error', herror, herror', hE, k + 1, hstops.cons hf,
            hstops'.cons hg⟩
      · rw [hf, hg, error_bind, error_bind]
        exact Or.inr ⟨error, error', rfl, rfl, herror, 0, stopsAt_zero hf, stopsAt_zero hg⟩

end Parallel

end Polish
