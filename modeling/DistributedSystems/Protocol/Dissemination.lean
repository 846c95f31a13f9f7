import Mathlib.Data.Set.Basic
import Mathlib.Data.Finset.Insert
import Mathlib.Data.Finset.Lattice.Basic
import Mathlib.Logic.Function.Basic

/-! # Dissemination of knowledge

Nodes send what they know and take over what they receive, so what a node knows only grows.
The news of a node travels with messages: a message carries the news of which its sender had
heard, and a node has heard what reached it through a chain of messages, late, lost and
repeated ones included.
-/
namespace DistributedSystems.Dissemination
variable {ι σ : Type*} [DecidableEq ι]

/-- Of which nodes every node has heard, and every message on its way has news. -/
structure News (ι : Type*) where
  heard : ι → Finset ι
  carried : List (Finset ι)

/-- `put i`: node `i` sends all it knows. `blank`: a message without news. `get j k`: node `j`
takes over message `k`. -/
inductive Event (ι : Type*)
  | put (i : ι)
  | blank
  | get (j : ι) (k : ℕ)

namespace News

/-- Everybody knows of itself only, and the messages of before count as old. -/
def init (ι : Type*) (messages : ℕ) : News ι := ⟨fun i => {i},List.replicate messages ∅⟩

def step (n : News ι) : Event ι → News ι
  | .put i => { n with carried := n.carried ++ [n.heard i] }
  | .blank => { n with carried := n.carried ++ [∅] }
  | .get j k => { n with heard := Function.update n.heard j (n.heard j ∪ n.carried[k]?.getD ∅) }

def steps (n : News ι) (events : List (Event ι)) : News ι := events.foldl step n

@[simp] theorem steps_nil (n : News ι) : n.steps [] = n := rfl

@[simp] theorem steps_cons (n : News ι) (e : Event ι) (events : List (Event ι)) :
    n.steps (e :: events) = (n.step e).steps events := rfl

theorem heard_get (n : News ι) (j j' : ι) (k : ℕ) :
    (n.step (.get j k)).heard j' = if j' = j then n.heard j ∪ n.carried[k]?.getD ∅ else n.heard j' := by
  by_cases h : j' = j
  · subst h
    simp [step]
  · simp [step,h]

theorem steps_append (n : News ι) (xs ys : List (Event ι)) : n.steps (xs ++ ys) = (n.steps xs).steps ys := by
  simp [steps]

end News

/-- Who has heard of a node knows at least what that node knew at the start, and so does every
message with news of it. -/
structure Tracks [Preorder σ] (start : ι → σ) (known : ι → σ) (messages : List σ) (n : News ι) : Prop where
  length : n.carried.length = messages.length
  heard : ∀ j, ∀ i ∈ n.heard j, start i ≤ known j
  carried : ∀ (k : ℕ) m, messages[k]? = some m → ∀ i ∈ n.carried[k]?.getD ∅, start i ≤ m

namespace Tracks
variable [Preorder σ] {start known known' : ι → σ} {messages : List σ} {n : News ι}

omit [DecidableEq ι] in
theorem init (known : ι → σ) (messages : List σ) : Tracks known known messages (News.init ι messages.length) where
  length := List.length_replicate
  heard j i hi := by
    rw [Finset.mem_singleton.mp hi]
  carried k m hm i hi := by
    obtain ⟨hk,-⟩ := List.getElem?_eq_some_iff.mp hm
    rw [News.init,List.getElem?_replicate,if_pos hk] at hi
    exact absurd hi (Finset.notMem_empty i)

omit [DecidableEq ι] in
theorem grow (h : Tracks start known messages n) (hgrow : ∀ i, known i ≤ known' i) :
    Tracks start known' messages n :=
  ⟨h.length,fun j i hi => (h.heard j i hi).trans (hgrow j),h.carried⟩

omit [DecidableEq ι] in
/-- A new message whose news its content covers. -/
theorem append (h : Tracks start known messages n) {m : σ} {news : Finset ι} (hnews : ∀ i ∈ news, start i ≤ m) :
    Tracks start known (messages ++ [m]) { n with carried := n.carried ++ [news] } := by
  refine ⟨by simp [h.length],h.heard,fun k m' hm' i hi => ?_⟩
  rcases Nat.lt_trichotomy k messages.length with hlt | heq | hgt
  · rw [List.getElem?_append_left hlt] at hm'
    rw [List.getElem?_append_left (h.length ▸ hlt)] at hi
    exact h.carried k m' hm' i hi
  · subst heq
    rw [List.getElem?_concat_length] at hm'
    rw [← h.length,List.getElem?_concat_length] at hi
    rw [← Option.some.inj hm']
    exact hnews i hi
  · rw [List.getElem?_eq_none (by simpa [Nat.succ_le_iff] using hgt)] at hm'
    cases hm'

theorem put (h : Tracks start known messages n) {i : ι} {m : σ} (hm : known i ≤ m) :
    Tracks start known (messages ++ [m]) (n.step (.put i)) :=
  h.append fun j hj => (h.heard i j hj).trans hm

theorem blank (h : Tracks start known messages n) (m : σ) : Tracks start known (messages ++ [m]) (n.step .blank) :=
  h.append fun i hi => absurd hi (Finset.notMem_empty i)

/-- A node that takes over a message, and forgets nothing. -/
theorem get (h : Tracks start known messages n) {j : ι} {k : ℕ} {m : σ} (hm : messages[k]? = some m)
    (hgrow : ∀ i, known i ≤ known' i) (hj : m ≤ known' j) : Tracks start known' messages (n.step (.get j k)) := by
  refine ⟨h.length,fun j' i hi => ?_,h.carried⟩
  rw [News.heard_get] at hi
  split at hi
  · rename_i hj'
    subst hj'
    rcases Finset.mem_union.mp hi with hi | hi
    · exact (h.heard j' i hi).trans (hgrow j')
    · exact (h.carried k m hm i hi).trans hj
  · exact (h.heard j' i hi).trans (hgrow j')

end Tracks

end DistributedSystems.Dissemination
