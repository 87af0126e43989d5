import Xpl.Collections.QueueInsertion

/-! The operations that take links out of a queue, and those that rebuild it. -/

set_option autoImplicit false

namespace Xpl.Collections
open Xpl.Library

variable {D : Type}

/-- The store and the queue after `item` has been taken out from between the links in front and behind;
`remains` is what the store then holds at its address. -/
structure Unlinked (s : Links D) (queue : Queue) (front : List (Item D)) (item : Item D) (back : List (Item D))
    (remains : Option (Link D)) (t : Links D) (after : Queue) : Prop where
  here : t.cell item.1 = remains
  others : ∀ q, q ≠ item.1 → t.cell q = (rejoin s front back (firstOr back none) (lastOr none front)).cell q
  head : after.head = firstOr (front ++ back) none
  tail : after.tail = lastOr none (front ++ back)
  length : after.length = toUint (queue.length + (2 ^ 32 - 1))
  fresh : t.Fresh
  next : t.next = s.next

/-- A link that belongs to no queue. -/
def Item.loose (item : Item D) : Link D := { data := item.2, next := none, prev := none }

theorem toUint_pred (n : Nat) : toUint (toUint (n + 1) + (2 ^ 32 - 1)) = toUint n := by
  unfold toUint
  rw [Nat.mod_add_mod, show n + 1 + (2 ^ 32 - 1) = n + 2 ^ 32 by omega, Nat.add_mod_right]

section Removal

variable {s t : Links D} {queue after : Queue} {links front back : List (Item D)} {item : Item D} {p : Nat} {data : D}
  {remains : Option (Link D)}

theorem Unlinked.represents (unlinked : Unlinked s queue front item back remains t after)
    (represents : Represents s queue (front ++ item :: back)) : Represents t after (front ++ back) := by
  have nodup := (nodup_split represents.nodup).1
  refine ⟨represents.segment.remove represents.nodup unlinked.others, nodup, unlinked.head, unlinked.tail, ?_⟩
  rw [unlinked.length, represents.length, List.length_append, List.length_append, List.length_cons, ← Nat.add_assoc, toUint_pred]

theorem Unlinked.frame (unlinked : Unlinked s queue front item back remains t after)
    (outside : p ∉ addresses (front ++ item :: back)) : t.cell p = s.cell p := by
  have other : p ≠ item.1 := by
    rintro rfl
    exact outside (List.mem_map_of_mem (List.mem_append_right _ List.mem_cons_self))
  rw [unlinked.others p other, cell_rejoin_ne]
  rw [addresses_append, List.mem_append, not_or] at outside ⊢
  exact ⟨outside.1, fun member => outside.2 (List.mem_cons_of_mem _ member)⟩

theorem skipForward_eq {node : Link D} (before : ∀ q, node.prev = some q → ∃ link, s.cell q = some link ∧ link.next = some p) :
    skipForward s p node = some (s.adjust node.prev fun link => { link with next := node.next }) := by
  unfold skipForward
  cases prev : node.prev with
  | none => rfl
  | some q =>
    obtain ⟨link, cell, next⟩ := before q prev
    simp only [Option.elim_some, cell, some_bind, next, if_true, setNext, Store.modify_eq _ cell]

theorem skipBackward_eq {node : Link D} (after : ∀ q, node.next = some q → ∃ link, s.cell q = some link ∧ link.prev = some p) :
    skipBackward s p node = some (s.adjust node.next fun link => { link with prev := node.prev }) := by
  unfold skipBackward
  cases next : node.next with
  | none => rfl
  | some q =>
    obtain ⟨link, cell, prev⟩ := after q next
    simp only [Option.elim_some, cell, some_bind, prev, if_true, setPrev, Store.modify_eq _ cell]

theorem Segment.next_of_last {before after : Option Nat} (segment : Segment s before front after) {q : Nat}
    (last : lastOr none front = some q) : ∃ link, s.cell q = some link ∧ link.next = after := by
  rcases List.eq_nil_or_concat front with rfl | ⟨front, ⟨r, d⟩, rfl⟩
  · cases last
  · rw [List.concat_eq_append] at segment last
    rw [lastOr_concat] at last
    cases last
    exact ⟨_, (segment_append.mp segment).2.1, rfl⟩

theorem Segment.prev_of_first {before after : Option Nat} (segment : Segment s before back after) {q : Nat}
    (first : firstOr back none = some q) : ∃ link, s.cell q = some link ∧ link.prev = before := by
  cases back with
  | nil => cases first
  | cons item back =>
    cases first
    exact ⟨_, segment.1, rfl⟩

theorem gQueueUnlink_spec (represents : Represents s queue (front ++ (p, data) :: back)) (fresh : s.Fresh) :
    ∃ t after, gQueueUnlink s queue p = some (t, after) ∧
      Unlinked s queue front (p, data) back (some (Item.loose (p, data))) t after := by
  have cell := represents.cell_first
  obtain ⟨nodup, notFront, notBack⟩ := nodup_split represents.nodup
  obtain ⟨segmentFront, segmentBack⟩ := segment_append.mp represents.segment
  have apart : ∀ q, firstOr back none = some q → lastOr none front ≠ some q := by
    intro q first last
    rw [addresses_append, List.nodup_append] at nodup
    exact nodup.2.2 q (mem_of_lastOr last) q (mem_of_firstOr first) rfl
  have away : ∀ pointer : Option Nat, pointer = lastOr none front ∨ pointer = firstOr back none → pointer ≠ some p := by
    rintro pointer (rfl | rfl) same
    · exact notFront (mem_of_lastOr same)
    · exact notBack (mem_of_firstOr same)
  have forward := @skipForward_eq _ s p { data := data, next := firstOr back none, prev := lastOr none front }
    fun q last => segmentFront.next_of_last last
  have backward := @skipBackward_eq _ (s.adjust (lastOr none front) fun link => { link with next := firstOr back none }) p
    { data := data, next := firstOr back none, prev := lastOr none front } fun q first => by
      rw [Store.cell_adjust_ne _ (apart q first)]
      exact segmentBack.2.prev_of_first first
  have kept : (rejoin s front back (firstOr back none) (lastOr none front)).cell p =
      some { data := data, next := firstOr back none, prev := lastOr none front } := by
    rw [rejoin, Store.cell_adjust_ne _ (away _ (Or.inr rfl)), Store.cell_adjust_ne _ (away _ (Or.inl rfl)), cell]
  unfold rejoin at kept
  simp only [gQueueUnlink, xlistRemoveLink, cell, forward, backward, some_bind, setNext, setPrev,
    Store.modify_eq _ kept, Store.modify_eq _ (Store.cell_adjust_self _ kept)]
  refine ⟨_, _, rfl, ?_, fun q other => ?_, ?_, ?_, rfl, ?_, rfl⟩
  · exact Store.cell_adjust_self _ (Store.cell_adjust_self _ kept)
  · rw [Store.cell_adjust_ne _ fun same => other (Option.some.inj same).symm,
      Store.cell_adjust_ne _ fun same => other (Option.some.inj same).symm]
    rfl
  · show (if queue.head = some p then _ else _) = _
    rw [represents.head]
    cases front with
    | nil => exact if_pos rfl
    | cons item front =>
      refine if_neg fun same => notFront ?_
      cases same
      exact List.mem_cons_self
  · show (if queue.tail = some p then _ else _) = _
    rw [represents.tail, lastOr_append, lastOr_append, lastOr_cons]
    rcases List.eq_nil_or_concat back with rfl | ⟨back, ⟨q, d⟩, rfl⟩
    · exact if_pos rfl
    · rw [List.concat_eq_append] at notBack ⊢
      rw [lastOr_concat, lastOr_concat]
      refine if_neg fun same => notBack ?_
      cases same
      simp
  · exact ((((fresh.adjust _ _).adjust _ _).adjust _ _).adjust _ _)

theorem xlistFree_loose (cell : s.cell p = some { data := data, next := none, prev := none }) (below : p < s.next) :
    xlistFree s (some p) = some (s.erase p) := by
  obtain ⟨count, more⟩ : ∃ count, s.next = count + 1 := ⟨s.next - 1, by omega⟩
  rw [xlistFree, turns, more]
  simp only [freeLoop, cell, some_bind, Store.free_eq (by rw [cell]; exact Option.some_ne_none _)]

theorem gQueueDeleteLink_spec (represents : Represents s queue (front ++ (p, data) :: back)) (fresh : s.Fresh) :
    ∃ t after, gQueueDeleteLink s queue p = some (t, after) ∧ Unlinked s queue front (p, data) back none t after := by
  obtain ⟨t, after, unlink, unlinked⟩ := gQueueUnlink_spec represents fresh
  have below := represents.below fresh (by simp : p ∈ addresses (front ++ (p, data) :: back))
  have freed := xlistFree_loose unlinked.here (by rw [unlinked.next]; exact below)
  simp only [gQueueDeleteLink, unlink, freed, some_bind]
  refine ⟨_, _, rfl, ?_, fun q other => ?_, unlinked.head, unlinked.tail, unlinked.length, unlinked.fresh.erase _, unlinked.next⟩
  · exact (Store.cell_erase _ _ _).trans (if_pos rfl)
  · rw [Store.cell_erase_ne other, unlinked.others q other]

theorem gQueuePopHead_spec (represents : Represents s queue ((p, data) :: back)) (fresh : s.Fresh) :
    ∃ t after, gQueuePopHead s queue = some (some data, t, after) ∧ Unlinked s queue [] (p, data) back none t after := by
  have head : queue.head = some p := represents.head
  have cell : s.cell p = some { data := data, next := firstOr back none, prev := none } := represents.segment.1
  have notBack : p ∉ addresses back := (List.nodup_cons.mp represents.nodup).1
  have away : firstOr back none ≠ some p := fun first => notBack (mem_of_firstOr first)
  have unhooked : setPrevIf s (firstOr back none) none =
      some (s.adjust (firstOr back none) fun link => { link with prev := none }) :=
    Store.modifyIf_eq _ fun q first => represents.segment.2.cell_ne (mem_of_firstOr first)
  have kept : (s.adjust (firstOr back none) fun link => { link with prev := none }).cell p ≠ none := by
    rw [Store.cell_adjust_ne _ away, cell]
    exact Option.some_ne_none _
  simp only [gQueuePopHead, head, cell, unhooked, Store.free_eq kept, some_bind]
  refine ⟨_, _, rfl, ?_, fun q other => ?_, rfl, ?_, rfl, (fresh.adjust _ _).erase _, rfl⟩
  · exact (Store.cell_erase _ _ _).trans (if_pos rfl)
  · rw [Store.cell_erase_ne other]
    rfl
  · show (if (firstOr back none).isSome then _ else _) = _
    rw [represents.tail, lastOr_cons]
    cases back with
    | nil => rfl
    | cons item back => rfl

theorem gQueuePopHeadLink_spec (represents : Represents s queue ((p, data) :: back)) (fresh : s.Fresh) :
    ∃ t after, gQueuePopHeadLink s queue = some (some p, t, after) ∧
      Unlinked s queue [] (p, data) back (some (Item.loose (p, data))) t after := by
  have head : queue.head = some p := represents.head
  have cell : s.cell p = some { data := data, next := firstOr back none, prev := none } := represents.segment.1
  cases back with
  | nil =>
    simp only [gQueuePopHeadLink, head, cell, firstOr_nil, setPrevIf, Store.modifyIf, Option.elim_none, onlyIf,
      Option.isSome_none, Bool.false_eq_true, if_false, some_bind]
    exact ⟨_, _, rfl, cell, fun q other => rfl, rfl, rfl, rfl, fresh, rfl⟩
  | cons item back =>
    obtain ⟨q, d⟩ := item
    have other : p ≠ q := fun same => (List.nodup_cons.mp represents.nodup).1 (same ▸ List.mem_cons_self)
    have second := represents.segment.2.1
    have kept : (s.adjust (some q) fun link => { link with prev := none }).cell p =
        some { data := data, next := some q, prev := none } := by
      rw [Store.cell_adjust_ne _ fun same => other (Option.some.inj same).symm, cell]
      rfl
    simp only [gQueuePopHeadLink, head, cell, firstOr_cons, setPrevIf, Store.modifyIf, Option.elim_some, onlyIf, setNext,
      Option.isSome_some, if_true, some_bind, Store.modify_eq _ second, Store.modify_eq _ kept]
    refine ⟨_, _, rfl, Store.cell_adjust_self _ kept, fun r new => ?_, rfl, ?_, rfl, (fresh.adjust _ _).adjust _ _, rfl⟩
    · rw [Store.cell_adjust_ne _ fun same => new (Option.some.inj same).symm]
      rfl
    · show queue.tail = _
      rw [represents.tail, lastOr_cons, lastOr_cons, List.nil_append, lastOr_cons]

theorem gQueuePopTail_spec (represents : Represents s queue (front ++ [(p, data)])) (fresh : s.Fresh) :
    ∃ t after, gQueuePopTail s queue = some (some data, t, after) ∧ Unlinked s queue front (p, data) [] none t after := by
  have tail : queue.tail = some p := represents.tail.trans (lastOr_concat _)
  have cell : s.cell p = some { data := data, next := none, prev := lastOr none front } := represents.cell_first
  have notFront : p ∉ addresses front := (nodup_split represents.nodup).2.1
  have away : lastOr none front ≠ some p := fun last => notFront (mem_of_lastOr last)
  have unhooked : setNextIf s (lastOr none front) none =
      some (s.adjust (lastOr none front) fun link => { link with next := none }) :=
    Store.modifyIf_eq _ fun q last => (segment_append.mp represents.segment).1.cell_ne (mem_of_lastOr last)
  have kept : (s.adjust (lastOr none front) fun link => { link with next := none }).cell p ≠ none := by
    rw [Store.cell_adjust_ne _ away, cell]
    exact Option.some_ne_none _
  simp only [gQueuePopTail, tail, cell, unhooked, Store.free_eq kept, some_bind]
  refine ⟨_, _, rfl, ?_, fun q other => ?_, ?_, ?_, rfl, (fresh.adjust _ _).erase _, rfl⟩
  · exact (Store.cell_erase _ _ _).trans (if_pos rfl)
  · rw [Store.cell_erase_ne other]
    rfl
  · show (if (lastOr none front).isSome then _ else _) = _
    rw [represents.head, List.append_nil]
    cases front with
    | nil => rfl
    | cons item front =>
      rfl
  · exact congrArg (lastOr none) (List.append_nil front).symm

theorem gQueuePopTailLink_spec (represents : Represents s queue (front ++ [(p, data)])) (fresh : s.Fresh) :
    ∃ t after, gQueuePopTailLink s queue = some (some p, t, after) ∧
      Unlinked s queue front (p, data) [] (some (Item.loose (p, data))) t after := by
  have tail : queue.tail = some p := represents.tail.trans (lastOr_concat _)
  have cell : s.cell p = some { data := data, next := none, prev := lastOr none front } := represents.cell_first
  rcases List.eq_nil_or_concat front with rfl | ⟨front, ⟨q, d⟩, rfl⟩
  · simp only [gQueuePopTailLink, tail, cell, lastOr_nil, setNextIf, Store.modifyIf, Option.elim_none, onlyIf,
      Option.isSome_none, Bool.false_eq_true, if_false, some_bind]
    exact ⟨_, _, rfl, cell, fun q other => rfl, rfl, rfl, rfl, fresh, rfl⟩
  · rw [List.concat_eq_append] at represents cell ⊢
    have other : p ≠ q := fun same => (nodup_split represents.nodup).2.1 (same ▸ by simp)
    have previous := represents.cell_last
    rw [lastOr_concat] at cell
    have kept : (s.adjust (some q) fun link => { link with next := none }).cell p =
        some { data := data, next := none, prev := some q } := by
      rw [Store.cell_adjust_ne _ fun same => other (Option.some.inj same).symm, cell]
    simp only [gQueuePopTailLink, tail, cell, setNextIf, Store.modifyIf, Option.elim_some, onlyIf, setPrev,
      Option.isSome_some, if_true, some_bind, Store.modify_eq _ previous, Store.modify_eq _ kept]
    refine ⟨_, _, rfl, Store.cell_adjust_self _ kept, fun r new => ?_, ?_, ?_, rfl, (fresh.adjust _ _).adjust _ _, rfl⟩
    · rw [Store.cell_adjust_ne _ fun same => new (Option.some.inj same).symm, rejoin, lastOr_concat]
      rfl
    · show queue.head = _
      rw [represents.head, List.append_nil]
      cases front <;> rfl
    · show some q = _
      rw [List.append_nil, lastOr_concat]

end Removal

end Xpl.Collections
