import Mathlib.Algebra.BigOperators.Group.List.Basic
import Mathlib.Algebra.Order.Group.Defs
import Mathlib.Data.Nat.Cast.Defs
import Mathlib.Data.List.Chain
import Mathlib.Tactic.Abel

/-! # Accounts with an allowance

A level is spent from and grows by an allowance. What is spent between two entries is bounded
by the level that the first one finds and the allowance from the first one to the last.
-/
namespace DistributedSystems

/-- What the entries of a log say: the allowance given so far, what is spent, and the level
that remains. -/
structure Account (E K : Type*) where
  allotted : E → K
  spent : E → K
  level : E → K

namespace Account

/-- Entries that spend one or nothing are counted. -/
theorem sum_map_ite {E K : Type*} [AddMonoidWithOne K] (p : E → Bool) (log : List E) :
    (log.map fun e => if p e then (1 : K) else 0).sum = log.countP p := by
  induction log with
  | nil => simp
  | cons e log ih =>
    rw [List.map_cons,List.sum_cons,ih,List.countP_cons]
    cases p e with
    | false => simp
    | true =>
      rw [if_pos rfl,if_pos rfl,Nat.cast_add,Nat.cast_one]
      exact (Nat.cast_add_one_comm _).symm

variable {E K : Type*} [AddCommGroup K] [LinearOrder K] [IsOrderedAddMonoid K] (a : Account E K)

/-- The level has grown by no more than the allowance since the entry before. -/
def Follows (e e' : E) : Prop := a.level e' + a.spent e' ≤ a.level e + (a.allotted e' - a.allotted e)

variable {a}

theorem spent_after_le {e last : E} {rest : List E} (h : (e :: rest).IsChain a.Follows)
    (hlast : (e :: rest).getLast? = some last) :
    (rest.map a.spent).sum + a.level last ≤ a.level e + (a.allotted last - a.allotted e) := by
  induction rest generalizing e with
  | nil =>
    obtain rfl : e = last := Option.some.inj hlast
    simp
  | cons e' rest ih =>
    obtain ⟨hfollows,hrest⟩ := List.isChain_cons_cons.mp h
    rw [List.getLast?_cons_cons] at hlast
    rw [List.map_cons,List.sum_cons]
    calc a.spent e' + (rest.map a.spent).sum + a.level last
        = a.spent e' + ((rest.map a.spent).sum + a.level last) := add_assoc _ _ _
      _ ≤ a.spent e' + (a.level e' + (a.allotted last - a.allotted e')) := add_le_add le_rfl (ih hrest hlast)
      _ = a.level e' + a.spent e' + (a.allotted last - a.allotted e') := by abel
      _ ≤ a.level e + (a.allotted e' - a.allotted e) + (a.allotted last - a.allotted e') := add_le_add hfollows le_rfl
      _ = a.level e + (a.allotted last - a.allotted e) := by abel

/-- In a part of a log nobody spends more than the level found by its first entry and the allowance
since then. -/
theorem spent_le {log entries : List E} (hlog : log.IsChain a.Follows) (hpart : entries <:+: log)
    {first last : E} {capacity : K}
    (hfirst : entries.head? = some first) (hlast : entries.getLast? = some last)
    (hcapacity : a.level first + a.spent first ≤ capacity) (hlevel : 0 ≤ a.level last) :
    (entries.map a.spent).sum ≤ capacity + (a.allotted last - a.allotted first) := by
  obtain ⟨rest,rfl⟩ := List.head?_eq_some_iff.mp hfirst
  have h := List.IsChain.infix hlog hpart
  have hspent := spent_after_le h hlast
  rw [List.map_cons,List.sum_cons]
  calc a.spent first + (rest.map a.spent).sum
      ≤ a.spent first + ((rest.map a.spent).sum + a.level last) := add_le_add le_rfl (le_add_of_nonneg_right hlevel)
    _ ≤ a.spent first + (a.level first + (a.allotted last - a.allotted first)) :=
        add_le_add le_rfl hspent
    _ = a.level first + a.spent first + (a.allotted last - a.allotted first) := by abel
    _ ≤ capacity + (a.allotted last - a.allotted first) := add_le_add hcapacity le_rfl

end Account
end DistributedSystems
