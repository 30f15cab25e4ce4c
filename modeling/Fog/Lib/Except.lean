import Mathlib.Data.List.Forall2

/-!
# Fallible computations

A function that returns early on the first failed check (the {lit}`?` operator
on results and options) is a sequence of {lit}`Except` computations.  These are
the rules for reading off what such a sequence establishes when it succeeds:
each bound computation succeeded, each guard that would have thrown did not
fire, and a converted error changes no success.

Main results:

- Theorem {lit}`Except.bind_eq_ok`: a sequence succeeds exactly when its first
  part succeeds and the rest succeeds on that value.
- Theorem {lit}`Except.ite_throw_eq_ok`: a guard that throws on one side
  succeeds exactly when the other side is taken and succeeds.
- Theorem {lit}`Option.okOr_eq_ok`: converting an option to a result succeeds
  exactly on a present value.
- Theorems {lit}`Except.mapM_eq_ok` and {lit}`Except.forM_eq_ok`: a traversal
  succeeds exactly when every element's computation succeeds.
- Theorem {lit}`Except.perm_filterMap_toOption_append_toError?`: splitting a
  list of results into successes and errors keeps every one.
- Theorem {lit}`List.filterM_eq_some`: a filter whose test may fail is a plain
  filter when the test never fails.
-/

namespace Option

/-- The result of an optional value, failing with the given error when it is
absent. -/
def okOr {ε α : Type _} (o : Option α) (err : ε) : Except ε α :=
  match o with
  | some a => .ok a
  | none => .error err

variable {ε α : Type _}

/-- A present value converts to success. -/
@[simp]
theorem okOr_some (a : α) (err : ε) : (some a).okOr err = .ok a :=
  rfl

/-- An absent value converts to the given error. -/
@[simp]
theorem okOr_none (err : ε) : (none : Option α).okOr err = .error err :=
  rfl

/-- The conversion succeeds exactly on a present value. -/
@[simp]
theorem okOr_eq_ok {o : Option α} {err : ε} {a : α} : o.okOr err = .ok a ↔ o = some a := by
  cases o <;> simp

end Option

namespace Except

variable {ε ε' α β : Type _}

/-- A sequenced computation succeeds when its first part does and the rest
succeeds on that result. -/
@[simp]
theorem bind_eq_ok {x : Except ε α} {f : α → Except ε β} {b : β} :
    (x >>= f) = .ok b ↔ ∃ a, x = .ok a ∧ f a = .ok b := by
  cases x <;> simp [bind, Except.bind]

/-- A returned value succeeds with itself. -/
@[simp]
theorem pure_eq_ok {a b : α} : (pure a : Except ε α) = .ok b ↔ a = b := by
  simp [pure, Except.pure]

/-- A thrown error never succeeds. -/
@[simp]
theorem throw_ne_ok {e : ε} {a : α} : (throw e : Except ε α) ≠ .ok a := by
  simp [throw, throwThe, MonadExceptOf.throw]

/-- Renaming the error keeps success. -/
@[simp]
theorem mapError_eq_ok {x : Except ε α} {f : ε → ε'} {a : α} :
    x.mapError f = .ok a ↔ x = .ok a := by
  cases x <;> simp [Except.mapError]

/-- A guard that throws succeeds exactly when the guard fails and the rest
succeeds. -/
@[simp]
theorem ite_throw_eq_ok {p : Prop} [Decidable p] {x : Except ε α} {e : ε} {a : α} :
    (if p then throw e else x) = .ok a ↔ ¬ p ∧ x = .ok a := by
  by_cases hp : p <;> simp [hp]

/-- A computation of no value succeeds when it succeeds with the unit. -/
@[simp]
theorem exists_unit_eq_ok {x : Except ε Unit} : (∃ u, x = .ok u) ↔ x = .ok () :=
  ⟨fun ⟨(), h⟩ => h, fun h => ⟨(), h⟩⟩

/-- A mapped computation succeeds with the image of a success. -/
@[simp]
theorem map_eq_ok {x : Except ε α} {f : α → β} {b : β} :
    f <$> x = .ok b ↔ ∃ a, x = .ok a ∧ f a = b := by
  cases x <;> simp [Functor.map, Except.map]

/-- A traversal succeeds with a list exactly when each element's computation
succeeds with the matching entry. -/
theorem mapM_eq_ok {f : α → Except ε β} {l : List α} {r : List β} :
    l.mapM f = .ok r ↔ List.Forall₂ (fun a b => f a = .ok b) l r := by
  induction l generalizing r with
  | nil => cases r <;> simp [pure, Except.pure]
  | cons a l ih =>
    cases r with
    | nil => simp [List.mapM_cons]
    | cons b r =>
      simp only [List.mapM_cons, bind_eq_ok, pure_eq_ok, List.cons.injEq, List.forall₂_cons, ← ih]
      constructor
      · rintro ⟨b', hb, r', hr, rfl, rfl⟩
        exact ⟨hb, hr⟩
      · rintro ⟨hb, hr⟩
        exact ⟨b, hb, r, hr, rfl, rfl⟩

/-- A traversal of elements that each succeed succeeds. -/
theorem exists_mapM_eq_ok {f : α → Except ε β} {l : List α} (h : ∀ a ∈ l, ∃ b, f a = .ok b) :
    ∃ r, l.mapM f = .ok r := by
  induction l with
  | nil => exact ⟨[], rfl⟩
  | cons a l ih =>
    obtain ⟨b, hb⟩ := h a List.mem_cons_self
    obtain ⟨r, hr⟩ := ih fun a' ha' => h a' (List.mem_cons_of_mem a ha')
    exact ⟨b :: r, by simp [List.mapM_cons, hb, hr, bind, Except.bind, pure, Except.pure]⟩

/-- A loop over a list succeeds exactly when the body succeeds on every
element. -/
theorem forM_eq_ok {f : α → Except ε PUnit} {l : List α} :
    l.forM f = .ok ⟨⟩ ↔ ∀ a ∈ l, f a = .ok ⟨⟩ := by
  induction l with
  | nil => simp [pure, Except.pure]
  | cons a l ih =>
    show (f a >>= fun _ => l.forM f) = _ ↔ _
    simp only [bind_eq_ok, ih, List.mem_cons, forall_eq_or_imp]
    constructor
    · rintro ⟨⟨⟩, ha, hl⟩
      exact ⟨ha, hl⟩
    · rintro ⟨ha, hl⟩
      exact ⟨⟨⟩, ha, hl⟩

/-- A computation whose success, read as an option, has first component
{lean}`a` succeeds with it: a test that runs the computation finds its result. -/
theorem exists_eq_ok_of_toOption {β : Type _} {x : Except ε (α × β)} {a : α}
    (h : x.toOption.map Prod.fst = some a) : ∃ b, x = .ok (a, b) := by
  cases x with
  | error e => cases h
  | ok p =>
      obtain ⟨a', b⟩ := p
      simp only [Except.toOption, Option.map_some, Option.some.injEq] at h
      exact ⟨b, by rw [h]⟩

/-- The error of a failed computation. -/
def toError? : Except ε α → Option ε
  | .ok _ => none
  | .error e => some e

/-- Splitting results into the successes and the errors, each in order, loses
none of them. -/
theorem perm_filterMap_toOption_append_toError? (l : List (Except ε α)) :
    ((l.filterMap Except.toOption).map Except.ok ++ (l.filterMap toError?).map Except.error).Perm l := by
  induction l with
  | nil => exact .nil
  | cons x l ih =>
      cases x with
      | ok a => exact .cons _ ih
      | error e =>
          simp only [List.filterMap_cons, Except.toOption, toError?, List.map_cons]
          exact List.perm_middle.trans (.cons _ ih)

end Except

namespace List

/-- Every element on the left of a pointwise relation is related to some
element on the right. -/
theorem Forall₂.exists_of_mem_left {α β : Type _} {R : α → β → Prop} :
    ∀ {l : List α} {r : List β}, Forall₂ R l r → ∀ {a}, a ∈ l → ∃ b ∈ r, R a b
  | _, _, .nil, _, ha => absurd ha (not_mem_nil)
  | _, _, .cons (b := b) hab h, _, ha => by
    rcases mem_cons.1 ha with rfl | ha
    · exact ⟨b, mem_cons_self, hab⟩
    · obtain ⟨b', hb', hab'⟩ := h.exists_of_mem_left ha
      exact ⟨b', mem_cons_of_mem _ hb', hab'⟩

/-- A partial map over a list headed by an item keeps the item's image, if it
has one, then maps the rest. -/
theorem filterMap_cons_eq_toList_append {α β : Type _} (f : α → Option β) (a : α) (l : List α) :
    (a :: l).filterMap f = (f a).toList ++ l.filterMap f := by
  cases h : f a <;> simp [h]

/-- A traversal whose steps all succeed returns the map of their results. -/
theorem mapM_eq_some_map {α β : Type _} {f : α → Option β} {g : α → β} :
    ∀ {l : List α}, (∀ a ∈ l, f a = some (g a)) → l.mapM f = some (l.map g)
  | [], _ => rfl
  | a :: l, h => by
      have ha := h a mem_cons_self
      have hl := mapM_eq_some_map fun a' ha' => h a' (mem_cons_of_mem a ha')
      simp [List.mapM_cons, ha, hl]

/-- A filter whose test may fail (an assertion inside the closure) succeeds
when the test succeeds on every element, and then keeps the elements whose
test answered true. -/
theorem filterM_eq_some {α : Type} {p : α → Option Bool} {l : List α}
    (h : ∀ a ∈ l, (p a).isSome) :
    l.filterM p = some (l.filter fun a => (p a).getD false) := by
  suffices haux : ∀ acc, filterAuxM p l acc =
      some ((l.filter fun a => (p a).getD false).reverse ++ acc) by
    simp only [filterM, haux, List.append_nil]
    simp [bind, pure]
  induction l with
  | nil =>
      intro acc
      rfl
  | cons a l ih =>
      intro acc
      obtain ⟨b, hb⟩ := Option.isSome_iff_exists.1 (h a mem_cons_self)
      have ih' := ih fun a' ha' => h a' (mem_cons_of_mem a ha')
      simp only [filterAuxM, hb, bind, Option.bind_some, ih']
      cases b <;> simp [hb]

end List
