/-!
# Running computations

Computations that keep a state and may stop are functions on the state. What each operation does to
a state is stated once here, so that a computation applied to a state unfolds by rewriting. For
searches over a list that may fail, the lemmas say what the result tells about the elements. What
two runs of one computation have in common is shown part by part.
-/

namespace HornMachine

section State

variable {ε σ α β : Type}

theorem bind_apply (x : EStateM ε σ α) (f : α → EStateM ε σ β) (state : σ) :
    (x >>= f) state =
      match x state with
      | .ok value next => f value next
      | .error error next => .error error next := rfl

theorem map_apply (f : α → β) (x : EStateM ε σ α) (state : σ) :
    (f <$> x) state =
      match x state with
      | .ok value next => .ok (f value) next
      | .error error next => .error error next := rfl

theorem pure_apply (value : α) (state : σ) :
    (pure value : EStateM ε σ α) state = .ok value state := rfl

theorem get_apply (state : σ) : (get : EStateM ε σ σ) state = .ok state state := rfl

theorem set_apply (next state : σ) : (set next : EStateM ε σ PUnit) state = .ok ⟨⟩ next := rfl

theorem modify_apply (f : σ → σ) (state : σ) :
    (modify f : EStateM ε σ PUnit) state = .ok ⟨⟩ (f state) := rfl

theorem throw_apply (error : ε) (state : σ) :
    (throw error : EStateM ε σ α) state = .error error state := rfl

/-- A computation in two parts ends well when both do. -/
theorem bind_eq_ok {x : EStateM ε σ α} {f : α → EStateM ε σ β} {state last : σ} {value : β} :
    (x >>= f) state = .ok value last ↔
      ∃ middle next, x state = .ok middle next ∧ f middle next = .ok value last := by
  rw [bind_apply]
  constructor
  · intro ended
    cases first : x state with
    | ok middle next => exact ⟨middle, next, rfl, by simpa [first] using ended⟩
    | error error next => simp [first] at ended
  · rintro ⟨middle, next, first, second⟩
    simp [first, second]

/-- A loop over a list that ends well gives a result for each element. -/
theorem exists_of_mapM {f : α → EStateM ε σ β} {xs : List α} {ys : List β} {state last : σ}
    (ended : xs.mapM f state = .ok ys last) :
    ys.length = xs.length ∧ ∀ x ∈ xs, ∃ first value next, f x first = .ok value next := by
  induction xs generalizing state ys with
  | nil =>
    cases ended
    exact ⟨rfl, nofun⟩
  | cons x xs ih =>
    rw [List.mapM_cons, bind_eq_ok] at ended
    obtain ⟨y, middle, here, rest⟩ := ended
    obtain ⟨zs, next, later, made⟩ := bind_eq_ok.1 rest
    cases made
    obtain ⟨length, each⟩ := ih later
    exact ⟨by simp [length], List.forall_mem_cons.2 ⟨⟨_, _, _, here⟩, each⟩⟩

/-- A loop over a list ends well if each of its steps does. -/
theorem exists_mapM_ok {f : α → EStateM ε σ β} {xs : List α}
    (each : ∀ x ∈ xs, ∀ state, ∃ value next, f x state = .ok value next) (state : σ) :
    ∃ values last, xs.mapM f state = .ok values last := by
  induction xs generalizing state with
  | nil => exact ⟨[], state, rfl⟩
  | cons x xs ih =>
    obtain ⟨value, middle, first⟩ := each x List.mem_cons_self state
    obtain ⟨values, last, rest⟩ :=
      ih (fun other member ↦ each other (List.mem_cons_of_mem _ member)) middle
    refine ⟨value :: values, last, ?_⟩
    rw [List.mapM_cons]
    exact bind_eq_ok.2 ⟨value, middle, first, bind_eq_ok.2 ⟨values, last, rest, rfl⟩⟩

/-- If the computation stops, it does so with an error that is allowed. -/
def FailsOnly (allowed : ε → Prop) (x : EStateM ε σ α) (state : σ) : Prop :=
  ∀ error next, x state = .error error next → allowed error

variable {allowed : ε → Prop}

theorem failsOnly_of_ok {x : EStateM ε σ α} {state next : σ} {value : α}
    (ended : x state = .ok value next) : FailsOnly allowed x state := by
  intro error last failed
  rw [ended] at failed
  cases failed

theorem failsOnly_throw {error : ε} (holds : allowed error) (state : σ) :
    FailsOnly allowed (throw error : EStateM ε σ α) state := by
  rintro _ _ ⟨⟩
  exact holds

/-- Of two parts, each has to stop only as it may. -/
theorem failsOnly_bind {x : EStateM ε σ α} {f : α → EStateM ε σ β} {state : σ}
    (first : FailsOnly allowed x state)
    (second : ∀ value next, x state = .ok value next → FailsOnly allowed (f value) next) :
    FailsOnly allowed (x >>= f) state := by
  intro error last failed
  rw [bind_apply] at failed
  cases ended : x state with
  | ok value next =>
    rw [ended] at failed
    exact second value next ended error last failed
  | error found next =>
    rw [ended] at failed
    cases failed
    exact first _ _ ended

/-- After a part that ends well, the rest has to stop only as it may. -/
theorem failsOnly_bind_of_ok {x : EStateM ε σ α} {f : α → EStateM ε σ β}
    {state next : σ} {value : α}
    (ended : x state = .ok value next) (rest : FailsOnly allowed (f value) next) :
    FailsOnly allowed (x >>= f) state := by
  refine failsOnly_bind (failsOnly_of_ok ended) fun _ _ again ↦ ?_
  cases ended.symm.trans again
  exact rest

/-- A loop that keeps what its body needs stops only as its body may. -/
theorem failsOnly_mapM {f : α → EStateM ε σ β} {xs : List α} (holds : σ → Prop)
    (each : ∀ x ∈ xs, ∀ state, holds state → FailsOnly allowed (f x) state ∧
      ∀ value next, f x state = .ok value next → holds next)
    {state : σ} (begins : holds state) : FailsOnly allowed (xs.mapM f) state := by
  induction xs generalizing state with
  | nil => exact failsOnly_of_ok rfl
  | cons x xs ih =>
    obtain ⟨fails, keeps⟩ := each x List.mem_cons_self state begins
    rw [List.mapM_cons]
    refine failsOnly_bind fails fun value next ended ↦ failsOnly_bind ?_ fun _ _ _ ↦
      failsOnly_of_ok rfl
    exact ih (fun y member ↦ each y (List.mem_cons_of_mem _ member)) (keeps value next ended)

theorem failsOnly_forM {f : α → EStateM ε σ PUnit} {xs : List α} (holds : σ → Prop)
    (each : ∀ x ∈ xs, ∀ state, holds state → FailsOnly allowed (f x) state ∧
      ∀ value next, f x state = .ok value next → holds next)
    {state : σ} (begins : holds state) : FailsOnly allowed (xs.forM f) state := by
  induction xs generalizing state with
  | nil => exact failsOnly_of_ok rfl
  | cons x xs ih =>
    obtain ⟨fails, keeps⟩ := each x List.mem_cons_self state begins
    refine failsOnly_bind fails fun value next ended ↦ ?_
    exact ih (fun y member ↦ each y (List.mem_cons_of_mem _ member)) (keeps value next ended)

/-! ### Two runs of one computation -/

/-- From states that are related, a computation that ends well twice gives one value and states that
are related again. -/
def Parallel (before : σ → σ → Prop) (x : EStateM ε σ α) (after : α → σ → σ → Prop) : Prop :=
  ∀ ⦃state other⦄, before state other → ∀ ⦃value next value' next'⦄, x state = .ok value next →
    x other = .ok value' next' → value' = value ∧ after value next next'

variable {before : σ → σ → Prop} {x : EStateM ε σ α} {after : α → σ → σ → Prop}

theorem parallel_pure {value : α} (holds : ∀ ⦃state other⦄, before state other →
    after value state other) :
    Parallel before (pure value : EStateM ε σ α) after := by
  rintro state other related _ _ _ _ ⟨⟩ ⟨⟩
  exact ⟨rfl, holds related⟩

theorem parallel_modify {f : σ → σ} {after : σ → σ → Prop}
    (holds : ∀ ⦃state other⦄, before state other → after (f state) (f other)) :
    Parallel before (modify f : EStateM ε σ PUnit) fun _ ↦ after := by
  rintro state other related _ _ _ _ ⟨⟩ ⟨⟩
  exact ⟨rfl, holds related⟩

theorem Parallel.bind (first : Parallel before x after) {f : α → EStateM ε σ β}
    {last : β → σ → σ → Prop} (second : ∀ value, Parallel (after value) (f value) last) :
    Parallel before (x >>= f) last := by
  intro state other related value next value' next' ended ended'
  obtain ⟨middle, between, one, two⟩ := bind_eq_ok.1 ended
  obtain ⟨middle', between', one', two'⟩ := bind_eq_ok.1 ended'
  obtain ⟨rfl, still⟩ := first related one one'
  exact second _ still two two'

theorem Parallel.mono (parallel : Parallel before x after) {last : α → σ → σ → Prop}
    (weaker : ∀ value ⦃state other⦄, after value state other → last value state other) :
    Parallel before x last := by
  intro state other related value next value' next' ended ended'
  obtain ⟨same, still⟩ := parallel related ended ended'
  exact ⟨same, weaker value still⟩

/-- A loop keeps what each of its steps keeps. -/
theorem parallel_mapM {f : α → EStateM ε σ β} {xs : List α}
    (each : ∀ x ∈ xs, Parallel before (f x) fun _ ↦ before) :
    Parallel before (xs.mapM f) fun _ ↦ before := by
  induction xs with
  | nil => exact parallel_pure fun _ _ related ↦ related
  | cons x xs ih =>
    rw [List.mapM_cons]
    refine (each x List.mem_cons_self).bind fun _ ↦ ?_
    exact (ih fun y member ↦ each y (List.mem_cons_of_mem _ member)).bind fun _ ↦
      parallel_pure fun _ _ related ↦ related

end State

section Except

variable {ε α β : Type}

theorem Except.bind_eq_ok {x : Except ε α} {f : α → Except ε β} {value : β} :
    (x >>= f) = .ok value ↔ ∃ middle, x = .ok middle ∧ f middle = .ok value := by
  cases x <;> simp [bind, Except.bind]

theorem Except.map_eq_ok {x : Except ε α} {f : α → β} {value : β} :
    x.map f = .ok value ↔ ∃ result, x = .ok result ∧ f result = value := by
  cases x <;> simp [Except.map]

/-- If the result is an error, it is one that is allowed. -/
def Except.FailsOnly (allowed : ε → Prop) (result : Except ε α) : Prop :=
  ∀ error, result = .error error → allowed error

variable {allowed : ε → Prop}

theorem Except.failsOnly_ok (value : α) : FailsOnly allowed (.ok value) := by
  rintro _ ⟨⟩

theorem Except.failsOnly_bind {x : Except ε α} {f : α → Except ε β}
    (first : FailsOnly allowed x) (second : ∀ value, x = .ok value → FailsOnly allowed (f value)) :
    FailsOnly allowed (x >>= f) := by
  cases x with
  | ok value => exact second value rfl
  | error error => exact fun _ failed ↦ first _ (by cases failed; rfl)

theorem Except.failsOnly_anyM {f : α → Except ε Bool} {xs : List α}
    (each : ∀ x ∈ xs, FailsOnly allowed (f x)) : FailsOnly allowed (xs.anyM f) := by
  induction xs with
  | nil => exact failsOnly_ok _
  | cons x xs ih =>
    rw [List.anyM]
    refine failsOnly_bind (each x List.mem_cons_self) fun holds _ ↦ ?_
    cases holds with
    | true => exact failsOnly_ok _
    | false => exact ih fun y member ↦ each y (List.mem_cons_of_mem _ member)

theorem Except.failsOnly_allM {f : α → Except ε Bool} {xs : List α}
    (each : ∀ x ∈ xs, FailsOnly allowed (f x)) : FailsOnly allowed (xs.allM f) := by
  induction xs with
  | nil => exact failsOnly_ok _
  | cons x xs ih =>
    rw [List.allM]
    refine failsOnly_bind (each x List.mem_cons_self) fun holds _ ↦ ?_
    cases holds with
    | false => exact failsOnly_ok _
    | true => exact ih fun y member ↦ each y (List.mem_cons_of_mem _ member)

/-- A search that finds something found it at an element. -/
theorem Except.exists_of_anyM {f : α → Except ε Bool} {xs : List α}
    (found : xs.anyM f = .ok true) : ∃ x ∈ xs, f x = .ok true := by
  induction xs with
  | nil => cases found
  | cons x xs ih =>
    rw [List.anyM, Except.bind_eq_ok] at found
    obtain ⟨holds, here, later⟩ := found
    cases holds with
    | true => exact ⟨x, List.mem_cons_self, here⟩
    | false =>
      obtain ⟨y, member, inside⟩ := ih later
      exact ⟨y, List.mem_cons_of_mem _ member, inside⟩

/-- A search that finds nothing looked at every element. -/
theorem Except.forall_of_anyM {f : α → Except ε Bool} {xs : List α}
    (searched : xs.anyM f = .ok false) : ∀ x ∈ xs, f x = .ok false := by
  induction xs with
  | nil => simp
  | cons x xs ih =>
    rw [List.anyM, Except.bind_eq_ok] at searched
    obtain ⟨holds, here, later⟩ := searched
    cases holds with
    | true => cases later
    | false =>
      intro y member
      rcases List.mem_cons.1 member with rfl | inside
      · exact here
      · exact ih later y inside

/-- A test that not all elements pass fails at one. -/
theorem Except.exists_of_allM {f : α → Except ε Bool} {xs : List α}
    (failed : xs.allM f = .ok false) : ∃ x ∈ xs, f x = .ok false := by
  induction xs with
  | nil => cases failed
  | cons x xs ih =>
    rw [List.allM, Except.bind_eq_ok] at failed
    obtain ⟨holds, here, later⟩ := failed
    cases holds with
    | false => exact ⟨x, List.mem_cons_self, here⟩
    | true =>
      obtain ⟨y, member, inside⟩ := ih later
      exact ⟨y, List.mem_cons_of_mem _ member, inside⟩

end Except
end HornMachine
