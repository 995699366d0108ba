import Mathlib.Data.List.Nodup
import Mathlib.Data.List.Perm.Basic
import Mathlib.Data.List.Range

/-!
# Tickets

A ticket office accepts requests, settles them in any order and delivers the outcomes in the order
of acceptance. A trace is what an observer of the office sees, the latest event first; `Legal`
traces are those of an office that numbers requests 1, 2, 3, …, settles each at most once and only
after it was accepted, and delivers 1, 2, 3, …, each after it was settled.

An implementation is an office if its traces are legal.
-/

namespace Conc

variable {α β γ ο : Type*}

inductive Event (α β γ ο : Type*) where
  | accepted (ticket : ℕ) (request : α)
  | settled (ticket : ℕ) (outcome : β)
  | delivered (ticket : ℕ) (result : γ)
  | note (note : ο)

namespace Event

def acceptedTicket? : Event α β γ ο → Option ℕ
  | .accepted ticket _ => some ticket
  | _ => none

def settledTicket? : Event α β γ ο → Option ℕ
  | .settled ticket _ => some ticket
  | _ => none

def deliveredTicket? : Event α β γ ο → Option ℕ
  | .delivered ticket _ => some ticket
  | _ => none

end Event

abbrev Trace (α β γ ο : Type*) := List (Event α β γ ο)

namespace Trace

def acceptedTickets (trace : Trace α β γ ο) : List ℕ := trace.filterMap Event.acceptedTicket?

def settledTickets (trace : Trace α β γ ο) : List ℕ := trace.filterMap Event.settledTicket?

def deliveredTickets (trace : Trace α β γ ο) : List ℕ := trace.filterMap Event.deliveredTicket?

variable {trace : Trace α β γ ο} {ticket : ℕ}

theorem mem_acceptedTickets :
    ticket ∈ acceptedTickets trace ↔ ∃ request, .accepted ticket request ∈ trace := by
  unfold acceptedTickets
  rw [List.mem_filterMap]
  constructor
  · rintro ⟨event, hmem, h⟩
    cases event with
    | accepted t request =>
      obtain rfl := Option.some.inj h
      exact ⟨request, hmem⟩
    | _ => exact nomatch h
  · rintro ⟨request, hmem⟩
    exact ⟨_, hmem, rfl⟩

theorem mem_settledTickets :
    ticket ∈ settledTickets trace ↔ ∃ outcome, .settled ticket outcome ∈ trace := by
  unfold settledTickets
  rw [List.mem_filterMap]
  constructor
  · rintro ⟨event, hmem, h⟩
    cases event with
    | settled t outcome =>
      obtain rfl := Option.some.inj h
      exact ⟨outcome, hmem⟩
    | _ => exact nomatch h
  · rintro ⟨outcome, hmem⟩
    exact ⟨_, hmem, rfl⟩

end Trace

open Trace

/-- The traces of an office; `out` is what is delivered of an outcome. -/
inductive Legal (out : β → γ) : Trace α β γ ο → Prop
  | nil : Legal out []
  | accept {trace : Trace α β γ ο} (request : α) : Legal out trace →
      Legal out (.accepted ((acceptedTickets trace).length + 1) request :: trace)
  | settle {trace : Trace α β γ ο} {ticket : ℕ} (outcome : β) : Legal out trace →
      ticket ∈ acceptedTickets trace → ticket ∉ settledTickets trace →
      Legal out (.settled ticket outcome :: trace)
  | deliver {trace : Trace α β γ ο} {outcome : β} : Legal out trace →
      .settled ((deliveredTickets trace).length + 1) outcome ∈ trace →
      Legal out (.delivered ((deliveredTickets trace).length + 1) (out outcome) :: trace)
  | note {trace : Trace α β γ ο} (note : ο) : Legal out trace → Legal out (.note note :: trace)

namespace Legal

variable {out : β → γ} {trace : Trace α β γ ο} {ticket : ℕ}

/-- Tickets are accepted in the order 1, 2, 3, …. -/
theorem acceptedTickets_eq (h : Legal out trace) :
    (acceptedTickets trace).reverse = List.range' 1 (acceptedTickets trace).length := by
  induction h with
  | nil => rfl
  | accept request _ ih =>
    show (_ :: acceptedTickets _).reverse = List.range' 1 (_ :: acceptedTickets _).length
    rw [List.reverse_cons, ih, List.length_cons, List.range'_1_concat, Nat.add_comm 1]
  | settle _ _ _ _ ih => exact ih
  | deliver _ _ ih => exact ih
  | note _ _ ih => exact ih

/-- Tickets are delivered in the order 1, 2, 3, …. -/
theorem deliveredTickets_eq (h : Legal out trace) :
    (deliveredTickets trace).reverse = List.range' 1 (deliveredTickets trace).length := by
  induction h with
  | nil => rfl
  | accept _ _ ih => exact ih
  | settle _ _ _ _ ih => exact ih
  | deliver _ _ ih =>
    show (_ :: deliveredTickets _).reverse = List.range' 1 (_ :: deliveredTickets _).length
    rw [List.reverse_cons, ih, List.length_cons, List.range'_1_concat, Nat.add_comm 1]
  | note _ _ ih => exact ih

/-- No ticket is settled twice. -/
theorem nodup_settledTickets (h : Legal out trace) : (settledTickets trace).Nodup := by
  induction h with
  | nil => exact List.nodup_nil
  | accept _ _ ih => exact ih
  | settle _ _ _ hnot ih => exact List.nodup_cons.2 ⟨hnot, ih⟩
  | deliver _ _ ih => exact ih
  | note _ _ ih => exact ih

theorem mem_acceptedTickets_iff (h : Legal out trace) :
    ticket ∈ acceptedTickets trace ↔ 1 ≤ ticket ∧ ticket ≤ (acceptedTickets trace).length := by
  rw [← List.mem_reverse, h.acceptedTickets_eq, List.mem_range'_1]
  omega

theorem mem_deliveredTickets_iff (h : Legal out trace) :
    ticket ∈ deliveredTickets trace ↔ 1 ≤ ticket ∧ ticket ≤ (deliveredTickets trace).length := by
  rw [← List.mem_reverse, h.deliveredTickets_eq, List.mem_range'_1]
  omega

theorem settled_of_delivered (h : Legal out trace) (hmem : ticket ∈ deliveredTickets trace) :
    ticket ∈ settledTickets trace := by
  induction h with
  | nil => exact hmem
  | accept _ _ ih => exact ih hmem
  | settle _ _ _ _ ih => exact List.mem_cons_of_mem _ (ih hmem)
  | deliver _ hsettled ih =>
    rcases List.mem_cons.1 hmem with rfl | hmem
    · exact mem_settledTickets.2 ⟨_, List.mem_cons_of_mem _ hsettled⟩
    · exact ih hmem
  | note _ _ ih => exact ih hmem

theorem accepted_of_settled (h : Legal out trace) (hmem : ticket ∈ settledTickets trace) :
    ticket ∈ acceptedTickets trace := by
  induction h with
  | nil => exact hmem
  | accept _ _ ih => exact List.mem_cons_of_mem _ (ih hmem)
  | settle _ _ haccepted _ ih =>
    rcases List.mem_cons.1 hmem with rfl | hmem
    · exact haccepted
    · exact ih hmem
  | deliver _ _ ih => exact ih hmem
  | note _ _ ih => exact ih hmem

theorem length_deliveredTickets_le (h : Legal out trace) :
    (deliveredTickets trace).length ≤ (acceptedTickets trace).length := by
  rcases Nat.eq_zero_or_pos (deliveredTickets trace).length with hzero | hpos
  · omega
  · have hlast := h.mem_deliveredTickets_iff.2 ⟨hpos, le_rfl⟩
    exact (h.mem_acceptedTickets_iff.1 (h.accepted_of_settled (h.settled_of_delivered hlast))).2

end Legal

/-! ## Splitting a trace -/

/-- A list splits at most once at an element with a given key, if keys are distinct. -/
theorem split_unique {σ τ : Type*} {f : σ → Option τ} {key : τ} {x y : σ} (hx : f x = some key)
    (hy : f y = some key) : ∀ {a b a' b' : List σ}, ((a ++ x :: b).filterMap f).Nodup →
      a ++ x :: b = a' ++ y :: b' → a = a' ∧ x = y ∧ b = b'
  | [], b, [], b', _, h => by
    obtain ⟨rfl, rfl⟩ := List.cons.inj h
    exact ⟨rfl, rfl, rfl⟩
  | [], b, z :: a', b', hnodup, h => by
    obtain ⟨rfl, rfl⟩ := List.cons.inj h
    rw [List.nil_append, List.filterMap_cons_some hx, List.nodup_cons] at hnodup
    exact (hnodup.1 (List.mem_filterMap.2 ⟨y, by simp, hy⟩)).elim
  | z :: a, b, [], b', hnodup, h => by
    obtain ⟨rfl, rfl⟩ := List.cons.inj h
    rw [List.cons_append, List.filterMap_cons_some hy, List.nodup_cons] at hnodup
    exact (hnodup.1 (List.mem_filterMap.2 ⟨x, by simp, hx⟩)).elim
  | z :: a, b, z' :: a', b', hnodup, h => by
    obtain ⟨rfl, hrest⟩ := List.cons.inj h
    have htail : ((a ++ x :: b).filterMap f).Nodup :=
      hnodup.sublist ((List.sublist_cons_self z _).filterMap f)
    obtain ⟨rfl, rfl, rfl⟩ := split_unique hx hy htail hrest
    exact ⟨rfl, rfl, rfl⟩

theorem Legal.nodup_acceptedTickets {out : β → γ} {trace : Trace α β γ ο} (h : Legal out trace) :
    (acceptedTickets trace).Nodup := by
  rw [← List.nodup_reverse, h.acceptedTickets_eq]
  exact List.nodup_range'

/-- A ticket is accepted at one place of the trace. -/
theorem Legal.accepted_split {out : β → γ} {a b a' b' : Trace α β γ ο} {ticket : ℕ}
    {request request' : α} (h : Legal out (a ++ .accepted ticket request :: b))
    (heq : a ++ .accepted ticket request :: b = a' ++ .accepted ticket request' :: b') :
    a = a' ∧ request = request' ∧ b = b' := by
  obtain ⟨ha, hevent, hb⟩ := split_unique (f := Event.acceptedTicket?) rfl rfl
    h.nodup_acceptedTickets heq
  exact ⟨ha, (Event.accepted.inj hevent).2, hb⟩

/-! ## Slots -/

theorem filterMap_cons_eq_append {σ τ : Type*} (f : σ → Option τ) (a : σ) (l : List σ) :
    (a :: l).filterMap f = (f a).toList ++ l.filterMap f := by
  rw [List.filterMap_cons]
  cases f a <;> rfl

/-- Replacing one slot of a list exchanges what it holds. -/
theorem filterMap_set_perm {σ τ : Type*} (f : σ → Option τ) {b : σ} :
    ∀ {l : List σ} {i : ℕ} {a : σ}, l[i]? = some a →
      ((f a).toList ++ (l.set i b).filterMap f).Perm ((f b).toList ++ l.filterMap f)
  | [], _, _, h => nomatch h
  | c :: l, 0, a, h => by
    obtain rfl := Option.some.inj h
    rw [List.set_cons_zero, filterMap_cons_eq_append, filterMap_cons_eq_append]
    exact List.perm_append_comm_assoc _ _ _
  | c :: l, i + 1, a, h => by
    have ih : ((f a).toList ++ (l.set i b).filterMap f).Perm ((f b).toList ++ l.filterMap f) :=
      filterMap_set_perm f h
    rw [List.set_cons_succ, filterMap_cons_eq_append, filterMap_cons_eq_append]
    exact (List.perm_append_comm_assoc _ _ _).trans
      ((ih.append_left _).trans (List.perm_append_comm_assoc _ _ _))

theorem length_filterMap_set {σ τ : Type*} (f : σ → Option τ) {l : List σ} {i : ℕ} {a b : σ}
    (h : l[i]? = some a) :
    (f a).toList.length + ((l.set i b).filterMap f).length =
      (f b).toList.length + (l.filterMap f).length := by
  simpa using (filterMap_set_perm f h (b := b)).length_eq

end Conc
