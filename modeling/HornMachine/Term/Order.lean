import HornMachine.Term.Basic

/-!
# The order of terms

Terms can be keys of ordered maps: the order is total, and equal terms are the only ones it does not
tell apart.
-/

namespace HornMachine.Term

mutual

private theorem order_swap (a b : Term) : order a b = (order b a).swap := by
  cases a <;> cases b <;> rw [order, order] <;> first | rfl | skip
  case atom.atom s t => exact Std.OrientedCmp.eq_swap
  case var.var v w => exact Std.OrientedCmp.eq_swap
  case struct.struct s ss t ts =>
    rw [Ordering.swap_then, ← orderList_swap ss ts]
    exact congrArg (Ordering.then · _) Std.OrientedCmp.eq_swap
  case num.num m n => exact Std.OrientedCmp.eq_swap

private theorem orderList_swap (as bs : List Term) : orderList as bs = (orderList bs as).swap := by
  match as, bs with
  | [], [] | [], _ :: _ | _ :: _, [] => rfl
  | a :: as, b :: bs =>
    rw [orderList, orderList, Ordering.swap_then, ← order_swap a b, ← orderList_swap as bs]

end

mutual

private theorem eq_of_order {a b : Term} (same : order a b = .eq) : a = b := by
  cases a <;> cases b <;> rw [order] at same <;> first | cases same | skip
  case atom.atom s t => rw [Std.LawfulEqCmp.eq_of_compare same]
  case var.var v w => rw [Nat.compare_eq_eq.1 same]
  case struct.struct s ss t ts =>
    obtain ⟨symbols, args⟩ := Ordering.then_eq_eq.1 same
    rw [Std.LawfulEqCmp.eq_of_compare symbols, eq_of_orderList args]
  case num.num m n => rw [Std.LawfulEqCmp.eq_of_compare same]

private theorem eq_of_orderList {as bs : List Term} (same : orderList as bs = .eq) : as = bs := by
  match as, bs with
  | [], [] => rfl
  | a :: as, b :: bs =>
    obtain ⟨first, rest⟩ := Ordering.then_eq_eq.1 same
    rw [eq_of_order first, eq_of_orderList rest]

end

mutual

private theorem order_lt_trans {a b c : Term} (lower : order a b = .lt) (upper : order b c = .lt) :
    order a c = .lt := by
  cases a <;> cases b <;> first | cases lower; done | cases c <;>
    first | rfl | cases upper; done | skip
  case atom.atom.atom =>
    rw [order] at lower upper ⊢
    exact Std.TransCmp.lt_trans lower upper
  case var.var.var =>
    rw [order] at lower upper ⊢
    exact Std.TransCmp.lt_trans lower upper
  case num.num.num =>
    rw [order] at lower upper ⊢
    exact Std.TransCmp.lt_trans lower upper
  case struct.struct.struct s ss t ts u us =>
    rw [order, Ordering.then_eq_lt] at lower upper ⊢
    obtain lower | ⟨same, lower⟩ := lower
    · obtain upper | ⟨same, -⟩ := upper
      · exact .inl (Std.TransCmp.lt_trans lower upper)
      · exact .inl (Std.LawfulEqCmp.eq_of_compare same ▸ lower)
    · cases Std.LawfulEqCmp.eq_of_compare same
      exact upper.imp id fun both ↦ ⟨both.1, orderList_lt_trans lower both.2⟩

private theorem orderList_lt_trans {as bs cs : List Term} (lower : orderList as bs = .lt)
    (upper : orderList bs cs = .lt) : orderList as cs = .lt := by
  match as, bs, cs with
  | _, _ :: _, [] => cases upper
  | _ :: _, [], _ => cases lower
  | [], _ , _ :: _ => rfl
  | a :: as, b :: bs, c :: cs =>
    rw [orderList, Ordering.then_eq_lt] at lower upper ⊢
    obtain lower | ⟨same, lower⟩ := lower
    · obtain upper | ⟨same, -⟩ := upper
      · exact .inl (order_lt_trans lower upper)
      · exact .inl (eq_of_order same ▸ lower)
    · cases eq_of_order same
      exact upper.imp id fun both ↦ ⟨both.1, orderList_lt_trans lower both.2⟩

end

instance : Std.TransOrd Term where
  eq_swap := order_swap _ _
  isLE_trans {a b c} lower upper := by
    rw [Ordering.isLE_iff_eq_lt_or_eq_eq] at lower upper ⊢
    obtain lower | same := lower
    · obtain upper | same := upper
      · exact .inl (order_lt_trans lower upper)
      · exact .inl (eq_of_order same ▸ lower)
    · cases eq_of_order same
      exact upper

instance : Std.LawfulEqOrd Term where
  eq_of_compare := eq_of_order

end HornMachine.Term
