import Xpl.Library.Partial
import Mathlib.Data.List.Induction
import Mathlib.Data.List.Nodup
import Mathlib.Data.List.Perm.Subperm
import Xpl.Collections.Queue

/-! The links of a queue as a list of addresses and data. -/

set_option autoImplicit false

namespace Xpl.Collections
open Xpl.Library

variable {D : Type}

/-- The link with its data. -/
abbrev Item (D : Type) := Nat × D

def addresses (links : List (Item D)) : List Nat := links.map Prod.fst

/-- The first address, or what follows an empty list. -/
def firstOr (links : List (Item D)) (after : Option Nat) : Option Nat := (links.head?.map Prod.fst).or after

/-- The last address, or what precedes an empty list. -/
def lastOr (before : Option Nat) (links : List (Item D)) : Option Nat := (links.getLast?.map Prod.fst).or before

/-- The links are chained in both directions, between `before` and `after`. -/
def Segment (s : Links D) : Option Nat → List (Item D) → Option Nat → Prop
  | _, [], _ => True
  | before, (p, data) :: links, after =>
    s.cell p = some { data := data, next := firstOr links after, prev := before } ∧ Segment s (some p) links after

section Segments

variable {s t : Links D} {before after : Option Nat} {links front back : List (Item D)} {p : Nat} {data : D}

@[simp] theorem firstOr_nil (after : Option Nat) : firstOr ([] : List (Item D)) after = after := rfl

@[simp] theorem firstOr_cons (after : Option Nat) : firstOr ((p, data) :: links) after = some p := rfl

@[simp] theorem lastOr_nil (before : Option Nat) : lastOr before ([] : List (Item D)) = before := rfl

theorem lastOr_cons (before : Option Nat) : lastOr before ((p, data) :: links) = lastOr (some p) links := by
  cases links with
  | nil => rfl
  | cons item links => simp [lastOr, List.getLast?_cons]

theorem lastOr_some (p : Nat) (links : List (Item D)) : ∃ q, lastOr (some p) links = some q := by
  induction links generalizing p with
  | nil => exact ⟨p, rfl⟩
  | cons item links ih =>
    rw [lastOr_cons]
    exact ih item.1

@[simp] theorem lastOr_concat (before : Option Nat) : lastOr before (links ++ [(p, data)]) = some p := by
  simp [lastOr]

theorem lastOr_append (before : Option Nat) : lastOr before (front ++ back) = lastOr (lastOr before front) back := by
  induction front generalizing before with
  | nil => rfl
  | cons item front ih => rw [List.cons_append, lastOr_cons, lastOr_cons, ih]

theorem firstOr_append (after : Option Nat) : firstOr (front ++ back) after = firstOr front (firstOr back after) := by
  cases front <;> rfl

@[simp] theorem addresses_nil : addresses ([] : List (Item D)) = [] := rfl

@[simp] theorem addresses_cons : addresses ((p, data) :: links) = p :: addresses links := rfl

@[simp] theorem addresses_append : addresses (front ++ back) = addresses front ++ addresses back := List.map_append

@[simp] theorem length_addresses (links : List (Item D)) : (addresses links).length = links.length := List.length_map _

theorem mem_of_firstOr (first : firstOr links none = some p) : p ∈ addresses links := by
  cases links with
  | nil => cases first
  | cons item links =>
    cases first
    exact List.mem_cons_self

theorem mem_of_lastOr (last : lastOr none links = some p) : p ∈ addresses links := by
  induction links using List.reverseRecOn with
  | nil => cases last
  | append_singleton links item _ =>
    rw [lastOr_concat] at last
    cases last
    exact List.mem_map_of_mem (List.mem_append_right links List.mem_cons_self)

theorem segment_append :
    Segment s before (front ++ back) after ↔
      Segment s before front (firstOr back after) ∧ Segment s (lastOr before front) back after := by
  induction front generalizing before with
  | nil => simp [Segment]
  | cons item front ih =>
    rw [List.cons_append, Segment, Segment, ih, lastOr_cons, firstOr_append]
    exact and_assoc.symm

theorem Segment.congr (segment : Segment s before links after) (same : ∀ p ∈ addresses links, t.cell p = s.cell p) :
    Segment t before links after := by
  induction links generalizing before with
  | nil => trivial
  | cons item links ih =>
    obtain ⟨p, data⟩ := item
    refine ⟨(same p List.mem_cons_self).trans segment.1, ih segment.2 fun q member => ?_⟩
    exact same q (List.mem_cons_of_mem _ member)

theorem Segment.cell_ne (segment : Segment s before links after) (member : p ∈ addresses links) : s.cell p ≠ none := by
  induction links generalizing before with
  | nil => cases member
  | cons item links ih =>
    rcases List.mem_cons.mp member with rfl | member
    · rw [segment.1]
      exact Option.some_ne_none _
    · exact ih segment.2 member

theorem Segment.relast (segment : Segment s before links after) (nodup : (addresses links).Nodup) (next : Option Nat) :
    Segment (s.adjust (lastOr none links) fun link => { link with next := next }) before links next := by
  induction links using List.reverseRecOn generalizing after with
  | nil => trivial
  | append_singleton links item _ =>
    obtain ⟨p, data⟩ := item
    rw [lastOr_concat]
    rw [addresses_append, List.nodup_append] at nodup
    obtain ⟨rest, last⟩ := segment_append.mp segment
    refine segment_append.mpr ⟨rest.congr fun q member => ?_, ?_, trivial⟩
    · refine Store.cell_adjust_ne _ fun same => ?_
      exact nodup.2.2 q member p List.mem_cons_self (Option.some.inj same).symm
    · exact Store.cell_adjust_self _ last.1

theorem Segment.refirst (segment : Segment s before links after) (nodup : (addresses links).Nodup) (prev : Option Nat) :
    Segment (s.adjust (firstOr links none) fun link => { link with prev := prev }) prev links after := by
  cases links with
  | nil => trivial
  | cons item links =>
    refine ⟨Store.cell_adjust_self _ segment.1, segment.2.congr fun q member => ?_⟩
    refine Store.cell_adjust_ne _ fun same => ?_
    rw [addresses_cons, List.nodup_cons] at nodup
    cases same
    exact nodup.1 member

/-- The store in which `next` follows the links in front and `prev` precedes those behind. -/
def rejoin (s : Links D) (front back : List (Item D)) (next prev : Option Nat) : Links D :=
  (s.adjust (lastOr none front) fun link => { link with next := next }).adjust (firstOr back none) fun link =>
    { link with prev := prev }

theorem cell_rejoin_ne {next prev : Option Nat} (outside : p ∉ addresses (front ++ back)) :
    (rejoin s front back next prev).cell p = s.cell p := by
  rw [addresses_append, List.mem_append, not_or] at outside
  rw [rejoin, Store.cell_adjust_ne _ fun first => outside.2 (mem_of_firstOr first),
    Store.cell_adjust_ne _ fun last => outside.1 (mem_of_lastOr last)]

theorem Segment.rejoin {middle final : Option Nat} (first : Segment s before front middle)
    (second : Segment s after back final) (nodup : (addresses (front ++ back)).Nodup) (next prev : Option Nat) :
    Segment (rejoin s front back next prev) before front next ∧ Segment (rejoin s front back next prev) prev back final := by
  rw [addresses_append, List.nodup_append] at nodup
  obtain ⟨nodupFront, nodupBack, apart⟩ := nodup
  constructor
  · refine (first.relast nodupFront next).congr fun q member => ?_
    exact Store.cell_adjust_ne _ fun same => apart q member q (mem_of_firstOr same) rfl
  · refine Segment.refirst (second.congr fun q member => ?_) nodupBack prev
    exact Store.cell_adjust_ne _ fun same => apart q (mem_of_lastOr same) q member rfl

theorem nodup_split (nodup : (addresses (front ++ (p, data) :: back)).Nodup) :
    (addresses (front ++ back)).Nodup ∧ p ∉ addresses front ∧ p ∉ addresses back := by
  rw [addresses_append, addresses_cons, List.nodup_middle, List.nodup_cons, List.mem_append, not_or] at nodup
  rw [addresses_append]
  exact ⟨nodup.2, nodup.1⟩

/-- A link is put between two others. -/
theorem Segment.insert (segment : Segment s none (front ++ back) none)
    (nodup : (addresses (front ++ (p, data) :: back)).Nodup)
    (here : t.cell p = some { data := data, next := firstOr back none, prev := lastOr none front })
    (others : ∀ q, q ≠ p → t.cell q = (Collections.rejoin s front back (some p) (some p)).cell q) :
    Segment t none (front ++ (p, data) :: back) none := by
  have split := nodup_split nodup
  obtain ⟨first, second⟩ := segment_append.mp segment
  obtain ⟨first, second⟩ := first.rejoin second split.1 (some p) (some p)
  refine segment_append.mpr ⟨first.congr fun q member => ?_, here, second.congr fun q member => ?_⟩
  · exact others q fun same => split.2.1 (same ▸ member)
  · exact others q fun same => split.2.2 (same ▸ member)

/-- A link is taken out. -/
theorem Segment.remove (segment : Segment s none (front ++ (p, data) :: back) none)
    (nodup : (addresses (front ++ (p, data) :: back)).Nodup)
    (others : ∀ q, q ≠ p →
      t.cell q = (Collections.rejoin s front back (firstOr back none) (lastOr none front)).cell q) :
    Segment t none (front ++ back) none := by
  have split := nodup_split nodup
  obtain ⟨first, second⟩ := segment_append.mp segment
  obtain ⟨first, second⟩ := first.rejoin second.2 split.1 (firstOr back none) (lastOr none front)
  refine segment_append.mpr ⟨first.congr fun q member => ?_, second.congr fun q member => ?_⟩
  · exact others q fun same => split.2.1 (same ▸ member)
  · exact others q fun same => split.2.2 (same ▸ member)

end Segments

/-! The operations that put one link into a queue. -/

variable {D : Type}

/-- The queue in the store is the list of links. -/
structure Represents (s : Links D) (queue : Queue) (links : List (Item D)) : Prop where
  segment : Segment s none links none
  nodup : (addresses links).Nodup
  head : queue.head = firstOr links none
  tail : queue.tail = lastOr none links
  length : queue.length = toUint links.length

/-- The store and the queue after `item` has been put between the links in front and behind. -/
structure Inserted (s : Links D) (queue : Queue) (front : List (Item D)) (item : Item D) (back : List (Item D))
    (t : Links D) (after : Queue) : Prop where
  here : t.cell item.1 = some { data := item.2, next := firstOr back none, prev := lastOr none front }
  others : ∀ q, q ≠ item.1 → t.cell q = (rejoin s front back (some item.1) (some item.1)).cell q
  head : after.head = firstOr (front ++ item :: back) none
  tail : after.tail = lastOr none (front ++ item :: back)
  length : after.length = toUint (queue.length + 1)
  fresh : t.Fresh
  next : t.next = max s.next (item.1 + 1)

theorem toUint_succ (n : Nat) : toUint (toUint n + 1) = toUint (n + 1) := by
  unfold toUint
  rw [Nat.mod_add_mod]

section Insertion

variable {s t : Links D} {queue after : Queue} {links front back : List (Item D)} {item : Item D} {p : Nat} {data : D}

theorem Represents.notMem_next (represents : Represents s queue links) (fresh : s.Fresh) : s.next ∉ addresses links := by
  intro member
  exact represents.segment.cell_ne member (fresh s.next (Nat.le_refl _))

theorem Inserted.represents (inserted : Inserted s queue front item back t after)
    (represents : Represents s queue (front ++ back)) (absent : item.1 ∉ addresses (front ++ back)) :
    Represents t after (front ++ item :: back) := by
  have nodup : (addresses (front ++ item :: back)).Nodup := by
    have before := represents.nodup
    rw [addresses_append] at before absent ⊢
    rw [addresses, addresses, List.map_cons, List.nodup_middle, List.nodup_cons]
    exact ⟨absent, before⟩
  refine ⟨represents.segment.insert nodup inserted.here inserted.others, nodup, inserted.head, inserted.tail, ?_⟩
  rw [inserted.length, represents.length, toUint_succ, List.length_append, List.length_append, List.length_cons, Nat.add_assoc]

theorem Inserted.frame (inserted : Inserted s queue front item back t after) (outside : p ∉ addresses (front ++ back))
    (other : p ≠ item.1) : t.cell p = s.cell p := by
  rw [inserted.others p other, cell_rejoin_ne outside]

theorem Represents.first (represents : Represents s queue links) (some_head : queue.head = some p) :
    ∃ data back, links = (p, data) :: back := by
  rw [represents.head] at some_head
  cases links with
  | nil => cases some_head
  | cons item back =>
    cases some_head
    exact ⟨item.2, back, rfl⟩

theorem Represents.last (represents : Represents s queue links) (some_tail : queue.tail = some p) :
    ∃ data front, links = front ++ [(p, data)] := by
  rw [represents.tail] at some_tail
  induction links using List.reverseRecOn with
  | nil => cases some_tail
  | append_singleton front item _ =>
    rw [lastOr_concat] at some_tail
    cases some_tail
    exact ⟨item.2, front, rfl⟩

theorem Represents.below (represents : Represents s queue links) (fresh : s.Fresh) (member : p ∈ addresses links) :
    p < s.next :=
  fresh.lt (represents.segment.cell_ne member)

/-- The cell of the link behind which another one is put. -/
theorem Represents.cell_last (represents : Represents s queue (front ++ [(p, data)] ++ back)) :
    s.cell p = some { data := data, next := firstOr back none, prev := lastOr none front } :=
  (segment_append.mp (segment_append.mp represents.segment).1).2.1

/-- The cell of the link before which another one is put. -/
theorem Represents.cell_first (represents : Represents s queue (front ++ (p, data) :: back)) :
    s.cell p = some { data := data, next := firstOr back none, prev := lastOr none front } :=
  (segment_append.mp represents.segment).2.1

attribute [local simp] rejoin

theorem gQueuePushHead_spec (represents : Represents s queue links) (fresh : s.Fresh) (data : D) :
    ∃ t after, gQueuePushHead s queue data = some (t, after) ∧ Inserted s queue [] (s.next, data) links t after := by
  unfold gQueuePushHead xlistPrepend xlistAlloc
  cases links with
  | nil =>
    have head : queue.head = none := represents.head
    have tail : queue.tail = none := represents.tail
    simp only [head, tail]
    refine ⟨_, _, rfl, ?_, ?_, rfl, rfl, rfl, fresh.alloc _, (Nat.max_eq_right (Nat.le_succ _)).symm⟩
    · simp
    · intro q other
      simp [show q ≠ s.next from other]
  | cons item back =>
    obtain ⟨p, d⟩ := item
    have head : queue.head = some p := represents.head
    have cell : s.cell p = some { data := d, next := firstOr back none, prev := none } := represents.segment.1
    have below := represents.below fresh (List.mem_cons_self : p ∈ addresses ((p, d) :: back))
    have other : p ≠ s.next := Nat.ne_of_lt below
    simp only [head, setNext, setPrev, setNextIf, Store.modify, Store.modifyIf, Store.cell_alloc, Store.cell_set, Store.alloc_fst,
      cell, other, if_true, if_false, Option.map_some, some_bind, Option.elim_none]
    refine ⟨_, _, rfl, ?_, ?_, rfl, ?_, rfl, ?_, (Nat.max_eq_right (Nat.le_succ _)).symm⟩
    · simp [other.symm]
    · intro q new
      by_cases first : q = p
      · subst first
        simp [cell]
      · simp [first, show q ≠ s.next from new, Ne.symm first]
    · have tail := represents.tail
      rw [lastOr_cons] at tail
      obtain ⟨q, last⟩ := lastOr_some p back
      rw [List.nil_append, lastOr_cons, lastOr_cons, last]
      rw [tail, last]
      rfl
    · exact (((fresh.alloc _).set (Nat.lt_succ_self _)).set (Nat.lt_succ_self _)).set (Nat.lt_succ_of_lt below)

theorem lastLoop_last {link : Link D} (cell : s.cell p = some link) (last : link.next = none) :
    lastLoop s (turns s) p = some p := by
  simp [turns, lastLoop, cell, last]

theorem gQueuePushTail_spec (represents : Represents s queue links) (fresh : s.Fresh) (data : D) :
    ∃ t after, gQueuePushTail s queue data = some (t, after) ∧ Inserted s queue links (s.next, data) [] t after := by
  unfold gQueuePushTail xlistAppend xlistAlloc
  cases links using List.reverseRecOn with
  | nil =>
    have tail : queue.tail = none := represents.tail
    simp only [tail, Store.deref, Option.bind_eq_bind, Option.bind_some, Store.alloc_fst, Store.cell_alloc, if_true,
      Option.isSome_none, Bool.false_eq_true, if_false]
    refine ⟨_, _, rfl, ?_, ?_, rfl, rfl, rfl, fresh.alloc _, (Nat.max_eq_right (Nat.le_succ _)).symm⟩
    · simp
    · intro q other
      simp [show q ≠ s.next from other]
  | append_singleton front item =>
    obtain ⟨p, d⟩ := item
    have tail : queue.tail = some p := represents.tail.trans (lastOr_concat _)
    have cell : s.cell p = some { data := d, next := none, prev := lastOr none front } := represents.cell_first
    have below := represents.below fresh (by simp : p ∈ addresses (front ++ [(p, d)]))
    have other : p ≠ s.next := Nat.ne_of_lt below
    have found : lastLoop (s.alloc { data := data, next := none, prev := none }).2
        (turns (s.alloc { data := data, next := none, prev := none }).2) p = some p :=
      lastLoop_last (by rw [Store.cell_alloc, if_neg other]; exact cell) rfl
    simp only [tail, found, setNext, setPrev, Store.modify, Store.cell_alloc, Store.cell_set, Store.alloc_fst, Store.deref,
      cell, other, other.symm, if_true, if_false, Option.map_some, Option.bind_eq_bind, Option.bind_some, Option.isSome_some]
    refine ⟨_, _, rfl, ?_, ?_, ?_, ?_, rfl, ?_, (Nat.max_eq_right (Nat.le_succ _)).symm⟩
    · simp
    · intro q new
      by_cases last : q = p
      · subst last
        simp [cell, other]
      · simp [last, show q ≠ s.next from new, Ne.symm last]
    · show queue.head = _
      rw [represents.head]
      cases front <;> rfl
    · exact (lastOr_concat _).symm
    · exact ((fresh.alloc _).set (Nat.lt_succ_of_lt below)).set (Nat.lt_succ_self _)

theorem gQueuePushHeadLink_spec (represents : Represents s queue links) (fresh : s.Fresh)
    (loose : s.cell p = some { data := data, next := none, prev := none }) (absent : p ∉ addresses links) :
    ∃ t after, gQueuePushHeadLink s queue p = some (t, after) ∧ Inserted s queue [] (p, data) links t after := by
  have here := fresh.lt (by rw [loose]; exact Option.some_ne_none _)
  unfold gQueuePushHeadLink
  cases links with
  | nil =>
    have head : queue.head = none := represents.head
    simp only [head, loose, setNext, setPrevIf, Store.modify, Store.modifyIf, Option.map_some, Option.bind_eq_bind,
      Option.bind_some, Option.isSome_none, Bool.or_self, Bool.false_eq_true, if_false, Option.elim_none]
    refine ⟨_, _, rfl, ?_, ?_, rfl, rfl, rfl, fresh.set here, (Nat.max_eq_left here).symm⟩
    · simp
    · intro q other
      simp [show q ≠ p from other]
  | cons item back =>
    obtain ⟨first, d⟩ := item
    have head : queue.head = some first := represents.head
    have cell : s.cell first = some { data := d, next := firstOr back none, prev := none } := represents.segment.1
    have below := represents.below fresh (List.mem_cons_self : first ∈ addresses ((first, d) :: back))
    have other : first ≠ p := fun same => absent (same ▸ List.mem_cons_self)
    simp only [head, loose, setNext, setPrevIf, Store.modify, Store.modifyIf, Store.cell_set, cell, other, if_false,
      Option.map_some, some_bind, Option.isSome_none, Option.isSome_some, Bool.or_self,
      Bool.false_eq_true, Option.elim_some]
    refine ⟨_, _, rfl, ?_, ?_, rfl, ?_, rfl, ?_, (Nat.max_eq_left here).symm⟩
    · simp [other.symm]
    · intro q new
      by_cases same : q = first
      · subst same
        simp [cell]
      · simp [same, show q ≠ p from new, Ne.symm same]
    · show queue.tail = _
      rw [represents.tail, List.nil_append, lastOr_cons, lastOr_cons, lastOr_cons]
    · exact (fresh.set here).set below

theorem gQueuePushTailLink_spec (represents : Represents s queue links) (fresh : s.Fresh)
    (loose : s.cell p = some { data := data, next := none, prev := none }) (absent : p ∉ addresses links) :
    ∃ t after, gQueuePushTailLink s queue p = some (t, after) ∧ Inserted s queue links (p, data) [] t after := by
  have here := fresh.lt (by rw [loose]; exact Option.some_ne_none _)
  unfold gQueuePushTailLink
  cases links using List.reverseRecOn with
  | nil =>
    have tail : queue.tail = none := represents.tail
    simp only [tail, loose, setPrev, setNextIf, Store.modify, Store.modifyIf, Option.map_some, Option.bind_eq_bind,
      Option.bind_some, Option.isSome_none, Bool.or_self, Bool.false_eq_true, if_false, Option.elim_none]
    refine ⟨_, _, rfl, ?_, ?_, rfl, rfl, rfl, fresh.set here, (Nat.max_eq_left here).symm⟩
    · simp
    · intro q other
      simp [show q ≠ p from other]
  | append_singleton front item =>
    obtain ⟨last, d⟩ := item
    have tail : queue.tail = some last := represents.tail.trans (lastOr_concat _)
    have cell : s.cell last = some { data := d, next := none, prev := lastOr none front } := represents.cell_first
    have member : last ∈ addresses (front ++ [(last, d)]) := by simp
    have below := represents.below fresh member
    have other : last ≠ p := fun same => absent (same ▸ member)
    simp only [tail, loose, setPrev, setNextIf, Store.modify, Store.modifyIf, Store.cell_set, cell, other, if_false,
      Option.map_some, some_bind, Option.isSome_none, Option.isSome_some, Bool.or_self,
      Bool.false_eq_true, Option.elim_some]
    refine ⟨_, _, rfl, ?_, ?_, ?_, ?_, rfl, ?_, (Nat.max_eq_left here).symm⟩
    · simp [other.symm]
    · intro q new
      by_cases same : q = last
      · subst same
        simp [cell]
      · simp [same, show q ≠ p from new, Ne.symm same]
    · show queue.head = _
      rw [represents.head]
      cases front <;> rfl
    · exact (lastOr_concat _).symm
    · exact (fresh.set here).set below

/-- Putting a link before another one, in a store that holds both. -/
theorem linkBefore_spec {sibling list : Nat} {d : D} {link : Link D}
    (segment : Segment s none (front ++ (sibling, d) :: back) none)
    (nodup : (addresses (front ++ (sibling, d) :: back)).Nodup) (fresh : s.Fresh) (loose : s.cell p = some link)
    (absent : p ∉ addresses (front ++ (sibling, d) :: back)) :
    ∃ head t, linkBefore s list sibling p = some (head, t) ∧
      t.cell p = some { data := link.data, next := some sibling, prev := lastOr none front } ∧
      (∀ q, q ≠ p → t.cell q = (rejoin s front ((sibling, d) :: back) (some p) (some p)).cell q) ∧
      head = (if front = [] then some p else some list) ∧ t.Fresh ∧ t.next = s.next := by
  have here := fresh.lt (by rw [loose]; exact Option.some_ne_none _)
  have cell : s.cell sibling = some { data := d, next := firstOr back none, prev := lastOr none front } :=
    (segment_append.mp segment).2.1
  have below := fresh.lt (by rw [cell]; exact Option.some_ne_none _)
  have other : sibling ≠ p := fun same => absent (same ▸ by simp)
  unfold linkBefore
  cases front using List.reverseRecOn with
  | nil =>
    simp only [cell, loose, setNext, setPrev, Store.modify, Store.cell_set, other, if_false, if_true, lastOr_nil,
      Option.map_some, some_bind]
    refine ⟨_, _, rfl, ?_, ?_, rfl, ((fresh.set here).set here).set below, rfl⟩
    · simp [other.symm]
    · intro q new
      by_cases same : q = sibling
      · subst same
        simp [cell]
      · simp [same, new, Ne.symm same]
  | append_singleton front item =>
    obtain ⟨last, e⟩ := item
    have before : s.cell last = some { data := e, next := some sibling, prev := lastOr none front } :=
      (segment_append.mp (segment_append.mp segment).1).2.1
    have apart : last ≠ sibling := by
      intro same
      subst same
      rw [List.append_assoc, addresses_append, List.nodup_append] at nodup
      simp at nodup
    have foreign : last ≠ p := fun same => absent (same ▸ by simp)
    have low := fresh.lt (by rw [before]; exact Option.some_ne_none _)
    simp only [cell, loose, before, setNext, setPrev, Store.modify, Store.cell_set, other, apart, foreign, if_false, if_true,
      lastOr_concat, Option.map_some, some_bind]
    refine ⟨_, _, rfl, ?_, ?_, ?_, (((fresh.set here).set here).set below).set low, rfl⟩
    · simp [other.symm, foreign.symm]
    · intro q new
      by_cases same : q = sibling
      · subst same
        simp [cell, apart.symm, apart]
      · by_cases same' : q = last
        · subst same'
          simp [before, Ne.symm same]
        · simp [same, same', new, Ne.symm same, Ne.symm same']
    · simp

theorem cell_rejoin_congr {next prev : Option Nat} {q : Nat} (same : t.cell q = s.cell q) :
    (rejoin t front back next prev).cell q = (rejoin s front back next prev).cell q := by
  simp only [rejoin, Store.cell_adjust, same]

theorem lastOr_middle (before : Option Nat) : lastOr before (front ++ item :: (p, data) :: back) =
    lastOr before (front ++ (p, data) :: back) := by
  rw [lastOr_append, lastOr_append, lastOr_cons, lastOr_cons, lastOr_cons]

theorem firstOr_middle (list : Nat) (head : firstOr (front ++ back) none = some list) :
    (if front = [] then some p else some list) = firstOr (front ++ (p, data) :: back) none := by
  cases front with
  | nil => rfl
  | cons item front => exact head.symm

theorem gQueueInsertBefore_spec (represents : Represents s queue (front ++ back)) (fresh : s.Fresh) (data : D) :
    ∃ t after, gQueueInsertBefore s queue (firstOr back none) data = some (t, after) ∧
      Inserted s queue front (s.next, data) back t after := by
  cases back with
  | nil =>
    rw [List.append_nil] at represents
    exact gQueuePushTail_spec represents fresh data
  | cons item back =>
    obtain ⟨sibling, d⟩ := item
    obtain ⟨list, head⟩ : ∃ list, firstOr (front ++ (sibling, d) :: back) none = some list := by
      cases front <;> exact ⟨_, rfl⟩
    have absent := represents.notMem_next fresh
    have kept : ∀ q, q ≠ s.next → (s.alloc { data := data, next := none, prev := none }).2.cell q = s.cell q :=
      fun q other => (Store.cell_alloc _ _ _).trans (if_neg other)
    have segment := represents.segment.congr fun q member => kept q fun same => absent (same ▸ member)
    obtain ⟨first, t, linked, here, others, which, freshAfter, next⟩ := @linkBefore_spec _ _ _ _ s.next sibling list _ _
      segment represents.nodup (fresh.alloc _) ((Store.cell_alloc _ _ _).trans (if_pos rfl)) absent
    simp only [firstOr_cons, gQueueInsertBefore, xlistInsertBefore, xlistAlloc, represents.head, head, Store.alloc_fst, linked,
      some_bind]
    refine ⟨_, _, rfl, here, fun q other => ?_, ?_, ?_, rfl, freshAfter, ?_⟩
    · rw [others q other]
      exact cell_rejoin_congr (kept q other)
    · exact which.trans (firstOr_middle list head)
    · exact represents.tail.trans (lastOr_middle none).symm
    · rw [next]
      exact (Nat.max_eq_right (Nat.le_succ _)).symm

theorem gQueueInsertBeforeLink_spec (represents : Represents s queue (front ++ back)) (fresh : s.Fresh)
    (loose : s.cell p = some { data := data, next := none, prev := none }) (absent : p ∉ addresses (front ++ back)) :
    ∃ t after, gQueueInsertBeforeLink s queue (firstOr back none) p = some (t, after) ∧
      Inserted s queue front (p, data) back t after := by
  cases back with
  | nil =>
    rw [List.append_nil] at represents absent
    simp only [gQueueInsertBeforeLink, loose, firstOr_nil, some_bind, Option.isSome_none,
      Bool.or_self, Bool.false_eq_true, if_false]
    exact gQueuePushTailLink_spec represents fresh loose absent
  | cons item back =>
    obtain ⟨sibling, d⟩ := item
    obtain ⟨list, head⟩ : ∃ list, firstOr (front ++ (sibling, d) :: back) none = some list := by
      cases front <;> exact ⟨_, rfl⟩
    obtain ⟨first, t, linked, here, others, which, freshAfter, next⟩ := @linkBefore_spec _ _ _ _ p sibling list _ _
      represents.segment represents.nodup fresh loose absent
    simp only [firstOr_cons, gQueueInsertBeforeLink, xlistInsertBeforeLink, represents.head, head, loose, linked,
      some_bind, Option.isSome_none, Bool.or_self, Bool.false_eq_true, if_false]
    refine ⟨_, _, rfl, here, others, ?_, ?_, rfl, freshAfter, ?_⟩
    · exact which.trans (firstOr_middle list head)
    · exact represents.tail.trans (lastOr_middle none).symm
    · rw [next]
      exact (Nat.max_eq_left (fresh.lt (by rw [loose]; exact Option.some_ne_none _))).symm

theorem gQueueInsertAfter_spec (represents : Represents s queue (front ++ back)) (fresh : s.Fresh) (data : D) :
    ∃ t after, gQueueInsertAfter s queue (lastOr none front) data = some (t, after) ∧
      Inserted s queue front (s.next, data) back t after := by
  rcases List.eq_nil_or_concat front with rfl | ⟨front, ⟨sibling, d⟩, rfl⟩
  · exact gQueuePushHead_spec represents fresh data
  · rw [List.concat_eq_append] at represents ⊢
    have cell := represents.cell_last
    simp only [gQueueInsertAfter, lastOr_concat, cell, some_bind]
    exact gQueueInsertBefore_spec represents fresh data

theorem gQueueInsertAfterLink_spec (represents : Represents s queue (front ++ back)) (fresh : s.Fresh)
    (loose : s.cell p = some { data := data, next := none, prev := none }) (absent : p ∉ addresses (front ++ back)) :
    ∃ t after, gQueueInsertAfterLink s queue (lastOr none front) p = some (t, after) ∧
      Inserted s queue front (p, data) back t after := by
  rcases List.eq_nil_or_concat front with rfl | ⟨front, ⟨sibling, d⟩, rfl⟩
  · simp only [gQueueInsertAfterLink, loose, lastOr_nil, some_bind, Option.isSome_none,
      Bool.or_self, Bool.false_eq_true, if_false]
    exact gQueuePushHeadLink_spec represents fresh loose absent
  · rw [List.concat_eq_append] at represents absent ⊢
    have cell := represents.cell_last
    simp only [gQueueInsertAfterLink, loose, lastOr_concat, cell, some_bind, Option.isSome_none,
      Bool.or_self, Bool.false_eq_true, if_false]
    exact gQueueInsertBeforeLink_spec represents fresh loose absent

end Insertion

section Search

variable {s : Links D} {queue : Queue} {links front back : List (Item D)} {before after : Option Nat} {p : Nat}

theorem follow_next (segment : Segment s before links none) {n : Nat} (inside : n ≤ links.length) :
    follow s Link.next n (firstOr links none) = some (firstOr (links.drop n) none) := by
  induction n generalizing links before with
  | zero => rfl
  | succ n ih =>
    cases links with
    | nil => cases inside
    | cons item links =>
      obtain ⟨p, data⟩ := item
      simp only [follow, firstOr_cons, Store.deref, Option.bind_some, segment.1, Option.bind_eq_bind, List.drop_succ_cons]
      exact ih segment.2 (Nat.le_of_succ_le_succ inside)

theorem follow_prev (segment : Segment s none links after) {n : Nat} (inside : n ≤ links.length) :
    follow s Link.prev n (lastOr none links) = some (lastOr none (links.take (links.length - n))) := by
  induction n generalizing links after with
  | zero => simp [follow]
  | succ n ih =>
    rcases List.eq_nil_or_concat links with rfl | ⟨front, ⟨p, data⟩, rfl⟩
    · cases inside
    · rw [List.concat_eq_append] at segment inside ⊢
      obtain ⟨first, last⟩ := segment_append.mp segment
      rw [List.length_append, List.length_singleton] at inside
      simp only [follow, lastOr_concat, Store.deref, Option.bind_some, last.1, Option.bind_eq_bind, List.length_append,
        List.length_singleton, Nat.add_sub_add_right]
      rw [ih first (by omega), List.take_append_of_le_length (by omega)]

/-- Both directions of the search end at the link with the given index. -/
theorem gQueuePeekNthLink_spec (represents : Represents s queue links) (small : links.length < 2 ^ 32) (n : Nat) :
    gQueuePeekNthLink s queue n = some (firstOr (links.drop n) none) := by
  have length : queue.length = links.length := represents.length.trans (Nat.mod_eq_of_lt small)
  unfold gQueuePeekNthLink
  rw [length]
  split_ifs with beyond late
  · rw [List.drop_eq_nil_of_le beyond]
    rfl
  · rw [represents.tail, follow_prev represents.segment (by omega), show links.length - (links.length - n - 1) = n + 1 by omega,
      List.take_succ_eq_append_getElem (by omega), List.drop_eq_getElem_cons (by omega)]
    exact congrArg some (lastOr_concat none)
  · rw [represents.head, follow_next represents.segment (by omega)]

theorem findLoop_spec {stop : Nat → Link D → Bool} {accepts : Item D → Bool} (segment : Segment s before links none)
    (agrees : ∀ item ∈ links, ∀ link : Link D, link.data = item.2 → stop item.1 link = accepts item) {fuel : Nat}
    (enough : links.length < fuel) (i : Nat) :
    findLoop s stop fuel (firstOr links none) i =
      some ((links.find? accepts).map fun item => (item.1, i + links.findIdx accepts)) := by
  induction links generalizing before fuel i with
  | nil =>
    obtain ⟨fuel, rfl⟩ := Nat.exists_eq_succ_of_ne_zero (Nat.ne_of_gt enough)
    rfl
  | cons item links ih =>
    obtain ⟨p, data⟩ := item
    obtain ⟨fuel, rfl⟩ := Nat.exists_eq_succ_of_ne_zero (Nat.ne_zero_of_lt enough)
    have here := agrees (p, data) List.mem_cons_self { data := data, next := firstOr links none, prev := before } rfl
    simp only [firstOr_cons, findLoop, segment.1, some_bind, here]
    cases found : accepts (p, data) with
    | true => simp [found, List.findIdx_cons]
    | false =>
      rw [if_neg Bool.false_ne_true, ih segment.2 (fun item member => agrees item (List.mem_cons_of_mem _ member))
        (Nat.lt_of_succ_lt_succ enough), List.find?_cons, found, List.findIdx_cons, found]
      simp [Nat.add_assoc, Nat.add_comm 1]

/-- There are at most as many links as addresses have been handed out. -/
theorem Segment.lt_turns (segment : Segment s before links after) (nodup : (addresses links).Nodup) (fresh : s.Fresh) :
    links.length < turns s := by
  have inside : addresses links ⊆ List.range s.next := fun p member =>
    List.mem_range.mpr (fresh.lt (segment.cell_ne member))
  have few := (nodup.subperm inside).length_le
  rw [length_addresses, List.length_range] at few
  exact Nat.lt_succ_of_le few

theorem Represents.turns (represents : Represents s queue links) (fresh : s.Fresh) : links.length < turns s :=
  represents.segment.lt_turns represents.nodup fresh

end Search

section Positions

variable {s : Links D} {queue : Queue} {links front back : List (Item D)} {p : Nat} {data : D}

/-- The position that a signed index stands for: the end, where it is negative or too large. -/
def clampIndex (length : Nat) (n : Int) : Nat := if n < 0 ∨ length ≤ n.toNat then length else n.toNat

theorem gQueuePushNth_spec (represents : Represents s queue links) (fresh : s.Fresh) (small : links.length < 2 ^ 32)
    (data : D) (n : Int) :
    ∃ t after, gQueuePushNth s queue data n = some (t, after) ∧
      Inserted s queue (links.take (clampIndex links.length n)) (s.next, data) (links.drop (clampIndex links.length n)) t after := by
  have length : queue.length = links.length := represents.length.trans (Nat.mod_eq_of_lt small)
  unfold gQueuePushNth clampIndex
  rw [length]
  split_ifs with outside
  · rw [List.take_length, List.drop_length]
    exact gQueuePushTail_spec represents fresh data
  · simp only [gQueuePeekNthLink_spec represents small, some_bind]
    exact gQueueInsertBefore_spec (by rwa [List.take_append_drop]) fresh data

theorem Segment.deref_last {before after : Option Nat} (segment : Segment s before (front ++ (p, data) :: back) after) :
    ∃ link, s.deref (lastOr none (front ++ (p, data) :: back)) = some link ∧ link.next = after := by
  rcases List.eq_nil_or_concat back with rfl | ⟨back, ⟨q, d⟩, rfl⟩
  · rw [lastOr_concat]
    exact ⟨_, (segment_append.mp segment).2.1, rfl⟩
  · rw [List.concat_eq_append, ← List.cons_append, ← List.append_assoc] at segment ⊢
    rw [lastOr_concat]
    exact ⟨_, (segment_append.mp segment).2.1, rfl⟩

/-- The assignments of the insertion at an index. -/
theorem linkBetween_spec {next : Nat} {d : D} (represents : Represents s queue (front ++ (next, d) :: back))
    (fresh : s.Fresh) (loose : s.cell p = some { data := data, next := none, prev := none })
    (absent : p ∉ addresses (front ++ (next, d) :: back)) :
    ∃ t, linkBetween s (lastOr none front) next p = some t ∧
      t.cell p = some { data := data, next := some next, prev := lastOr none front } ∧
      (∀ q, q ≠ p → t.cell q = (rejoin s front ((next, d) :: back) (some p) (some p)).cell q) ∧
      t.Fresh ∧ t.next = s.next := by
  have cell := represents.cell_first
  have other : next ≠ p := fun same => absent (same ▸ by simp)
  have before : ∀ q, lastOr none front = some q → s.cell q ≠ none ∧ q ≠ p := by
    intro q last
    have member : q ∈ addresses (front ++ (next, d) :: back) := by
      rw [addresses_append]
      exact List.mem_append_left _ (mem_of_lastOr last)
    exact ⟨represents.segment.cell_ne member, fun same => absent (same ▸ member)⟩
  have apart : lastOr none front ≠ some p := fun last => (before p last).2 rfl
  have first : (s.adjust (lastOr none front) fun link => { link with next := some p }).cell next ≠ none := by
    rw [Store.cell_adjust, cell]
    split <;> exact Option.some_ne_none _
  unfold linkBetween
  rw [setNextIf, Store.modifyIf_eq _ fun q last => (before q last).1]
  obtain ⟨link, found⟩ := Option.ne_none_iff_exists'.mp first
  simp only [Option.bind_eq_bind, Option.bind_some, setPrev, setNext, Store.modify_eq _ found]
  have kept : ((s.adjust (lastOr none front) fun link => { link with next := some p }).adjust (some next) fun link =>
      { link with prev := some p }).cell p = some { data := data, next := none, prev := none } := by
    rw [Store.cell_adjust_ne _ fun same => other (Option.some.inj same), Store.cell_adjust_ne _ apart, loose]
  rw [Store.modify_eq _ kept, Option.bind_some, Store.modify_eq _ (Store.cell_adjust_self _ kept)]
  refine ⟨_, rfl, ?_, fun q new => ?_, ((((fresh.adjust _ _).adjust _ _).adjust _ _).adjust _ _), rfl⟩
  · exact Store.cell_adjust_self _ (Store.cell_adjust_self _ kept)
  · rw [Store.cell_adjust_ne _ fun same => new (Option.some.inj same).symm,
      Store.cell_adjust_ne _ fun same => new (Option.some.inj same).symm]
    rfl

theorem gQueuePushNthLink_spec (represents : Represents s queue links) (fresh : s.Fresh) (small : links.length < 2 ^ 32)
    (loose : s.cell p = some { data := data, next := none, prev := none }) (absent : p ∉ addresses links) (n : Int) :
    ∃ t after, gQueuePushNthLink s queue n p = some (t, after) ∧
      Inserted s queue (links.take (clampIndex links.length n)) (p, data) (links.drop (clampIndex links.length n)) t after := by
  have length : queue.length = links.length := represents.length.trans (Nat.mod_eq_of_lt small)
  unfold gQueuePushNthLink clampIndex
  rw [length]
  split_ifs with outside
  · rw [List.take_length, List.drop_length]
    exact gQueuePushTailLink_spec represents fresh loose absent
  · have some_back : links.drop n.toNat ≠ [] := fun none => outside (Or.inr (List.drop_eq_nil_iff.mp none))
    rw [gQueuePeekNthLink_spec represents small]
    rw [← List.take_append_drop n.toNat links] at represents absent
    revert represents absent some_back
    generalize links.take n.toNat = front
    cases links.drop n.toNat with
    | nil => exact fun _ _ some_back => absurd rfl some_back
    | cons item back =>
      obtain ⟨next, d⟩ := item
      intro absent represents _
      obtain ⟨t, linked, here, others, freshAfter, same⟩ := linkBetween_spec represents fresh loose absent
      have nodup : (addresses (front ++ (p, data) :: (next, d) :: back)).Nodup := by
        rw [addresses_append, addresses_cons, List.nodup_middle, List.nodup_cons, ← addresses_append]
        exact ⟨absent, represents.nodup⟩
      have segment := represents.segment.insert nodup here others
      obtain ⟨last, tail, ending⟩ := Segment.deref_last segment
      rw [lastOr_middle, ← represents.tail] at tail
      obtain ⟨first, head, which⟩ : ∃ first, t.deref queue.head = some first ∧
          first.prev.or queue.head = firstOr (front ++ (p, data) :: (next, d) :: back) none := by
        rw [represents.head]
        cases front with
        | nil => exact ⟨_, segment.2.1, rfl⟩
        | cons item front => exact ⟨_, segment.1, rfl⟩
      simp only [firstOr_cons, represents.cell_first, linked, head, tail, ending, some_bind,
        Option.isSome_none, Bool.false_eq_true, if_false]
      refine ⟨_, _, rfl, here, others, which, ?_, ?_, freshAfter, ?_⟩
      · exact represents.tail.trans (lastOr_middle none).symm
      · exact congrArg (fun count => toUint (count + 1)) length.symm
      · rw [same]
        exact (Nat.max_eq_left (fresh.lt (by rw [loose]; exact Option.some_ne_none _))).symm

theorem firstOr_findIdx (accepts : Item D → Bool) (links : List (Item D)) :
    (links.find? accepts).map Prod.fst = firstOr (links.drop (links.findIdx accepts)) none := by
  induction links with
  | nil => rfl
  | cons item links ih =>
    rw [List.find?_cons, List.findIdx_cons]
    cases accepts item with
    | true => rfl
    | false => exact ih

theorem gQueueInsertSorted_spec (represents : Represents s queue links) (fresh : s.Fresh) (data : D) (func : D → D → Int) :
    ∃ t after, gQueueInsertSorted s queue data func = some (t, after) ∧
      Inserted s queue (links.take (links.findIdx fun item => ¬func item.2 data < 0)) (s.next, data)
        (links.drop (links.findIdx fun item => ¬func item.2 data < 0)) t after := by
  unfold gQueueInsertSorted
  rw [represents.head, @findLoop_spec _ _ _ _ _ (fun item => ¬func item.2 data < 0) represents.segment
    (fun item _ link same => by rw [same]) _ (represents.turns fresh)]
  simp only [some_bind, Option.map_map]
  have sibling := firstOr_findIdx (fun item : Item D => decide ¬func item.2 data < 0) links
  rw [show (Prod.fst ∘ fun item : Item D => (item.1, 0 + links.findIdx fun item => decide ¬func item.2 data < 0)) = Prod.fst
    from rfl, sibling]
  exact gQueueInsertBefore_spec (by rwa [List.take_append_drop]) fresh data

end Positions

end Xpl.Collections
