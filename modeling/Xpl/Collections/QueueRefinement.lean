import Xpl.Collections.QueueSorting

/-! Any number of queues over one store of links, against lists of links and data.

Links that belong to no queue are loose; the calls in link form take them from there and put
them back.
-/

set_option autoImplicit false

namespace Xpl.Collections
open Xpl.Library

variable {D : Type}

/-- The queues are those of `g_queue_init` at first. -/
structure QueueWorld (D : Type) where
  store : Links D
  queue : Nat → Queue

def QueueWorld.initial : QueueWorld D := { store := Store.empty, queue := fun _ => gQueueNew }

inductive QueueCall (D : Type) where
  | allocLink (data : D)
  | pushHead (q : Nat) (data : D)
  | pushTail (q : Nat) (data : D)
  | pushNth (q : Nat) (data : D) (n : Int)
  | pushHeadLink (q link : Nat)
  | pushTailLink (q link : Nat)
  | pushNthLink (q : Nat) (n : Int) (link : Nat)
  | popHead (q : Nat)
  | popTail (q : Nat)
  | popNth (q n : Nat)
  | popHeadLink (q : Nat)
  | popTailLink (q : Nat)
  | popNthLink (q n : Nat)
  | peekHead (q : Nat)
  | peekTail (q : Nat)
  | peekNth (q n : Nat)
  | peekNthLink (q n : Nat)
  | index (q : Nat) (data : D)
  | linkIndex (q link : Nat)
  | unlink (q link : Nat)
  | deleteLink (q link : Nat)
  | remove (q : Nat) (data : D)
  | removeAll (q : Nat) (data : D)
  | insertBefore (q : Nat) (sibling : Option Nat) (data : D)
  | insertBeforeLink (q : Nat) (sibling : Option Nat) (link : Nat)
  | insertAfter (q : Nat) (sibling : Option Nat) (data : D)
  | insertAfterLink (q : Nat) (sibling : Option Nat) (link : Nat)
  | insertSorted (q : Nat) (data : D) (func : D → D → Int)
  | reverse (q : Nat)
  | sort (q : Nat) (compare : D → D → Int)
  | copy (q result : Nat)
  | clear (q : Nat)

inductive Answer (D : Type) where
  | nothing
  | data (data : Option D)
  | link (link : Option Nat)
  | number (n : Int)
  | flag (flag : Bool)

def Answer.count (n : Nat) : Answer D := .number n

namespace QueueWorld

variable (world : QueueWorld D) (q : Nat)

def changed (x : Option (Links D × Queue)) : Option (QueueWorld D × Answer D) :=
  x.map fun (store, queue) => ({ store := store, queue := Function.update world.queue q queue }, .nothing)

def answered {α : Type} (answer : α → Answer D) (x : Option (α × Links D × Queue)) : Option (QueueWorld D × Answer D) :=
  x.map fun (a, store, queue) => ({ store := store, queue := Function.update world.queue q queue }, answer a)

def asked {α : Type} (answer : α → Answer D) (x : Option α) : Option (QueueWorld D × Answer D) :=
  x.map fun a => (world, answer a)

end QueueWorld

def QueueCall.perform [DecidableEq D] (world : QueueWorld D) : QueueCall D → Option (QueueWorld D × Answer D)
  | allocLink data => some ({ world with store := (xlistAlloc world.store data).2 }, .link (xlistAlloc world.store data).1)
  | pushHead q data => world.changed q (gQueuePushHead world.store (world.queue q) data)
  | pushTail q data => world.changed q (gQueuePushTail world.store (world.queue q) data)
  | pushNth q data n => world.changed q (gQueuePushNth world.store (world.queue q) data n)
  | pushHeadLink q link => world.changed q (gQueuePushHeadLink world.store (world.queue q) link)
  | pushTailLink q link => world.changed q (gQueuePushTailLink world.store (world.queue q) link)
  | pushNthLink q n link => world.changed q (gQueuePushNthLink world.store (world.queue q) n link)
  | popHead q => world.answered q .data (gQueuePopHead world.store (world.queue q))
  | popTail q => world.answered q .data (gQueuePopTail world.store (world.queue q))
  | popNth q n => world.answered q .data (gQueuePopNth world.store (world.queue q) n)
  | popHeadLink q => world.answered q .link (gQueuePopHeadLink world.store (world.queue q))
  | popTailLink q => world.answered q .link (gQueuePopTailLink world.store (world.queue q))
  | popNthLink q n => world.answered q .link (gQueuePopNthLink world.store (world.queue q) n)
  | peekHead q => world.asked .data (gQueuePeekHead world.store (world.queue q))
  | peekTail q => world.asked .data (gQueuePeekTail world.store (world.queue q))
  | peekNth q n => world.asked .data (gQueuePeekNth world.store (world.queue q) n)
  | peekNthLink q n => world.asked .link (gQueuePeekNthLink world.store (world.queue q) n)
  | index q data => world.asked .number (xlistIndex world.store (world.queue q).head data)
  | linkIndex q link => world.asked .number (xlistPosition world.store (world.queue q).head link)
  | unlink q link => world.changed q (gQueueUnlink world.store (world.queue q) link)
  | deleteLink q link => world.changed q (gQueueDeleteLink world.store (world.queue q) link)
  | remove q data => world.answered q .flag (gQueueRemove world.store (world.queue q) data)
  | removeAll q data => world.answered q .count (gQueueRemoveAll world.store (world.queue q) data)
  | insertBefore q sibling data => world.changed q (gQueueInsertBefore world.store (world.queue q) sibling data)
  | insertBeforeLink q sibling link => world.changed q (gQueueInsertBeforeLink world.store (world.queue q) sibling link)
  | insertAfter q sibling data => world.changed q (gQueueInsertAfter world.store (world.queue q) sibling data)
  | insertAfterLink q sibling link => world.changed q (gQueueInsertAfterLink world.store (world.queue q) sibling link)
  | insertSorted q data func => world.changed q (gQueueInsertSorted world.store (world.queue q) data func)
  | reverse q => world.changed q (gQueueReverse world.store (world.queue q))
  | sort q compare => world.changed q (gQueueSort world.store (world.queue q) compare)
  | copy q result => world.changed result (gQueueCopy world.store (world.queue q))
  | clear q => world.changed q (gQueueClear world.store (world.queue q))

def performCalls [DecidableEq D] (world : QueueWorld D) : List (QueueCall D) → Option (QueueWorld D × List (Answer D))
  | [] => some (world, [])
  | call :: calls => do
    let (world, answer) ← call.perform world
    let (world, answers) ← performCalls world calls
    some (world, answer :: answers)

/-- The abstract state: the lists, the links outside them, and the next link to be allocated. -/
structure Lists (D : Type) where
  next : Nat
  lists : Nat → List (Item D)
  loose : List (Item D)

namespace Lists

def initial : Lists D := { next := 0, lists := fun _ => [], loose := [] }

/-- One list is replaced; the links `taken` are no longer loose, those `given` are. -/
def change (a : Lists D) (q : Nat) (links : List (Item D)) (next : Nat) (taken given : List (Item D)) : Lists D :=
  { next := next
    lists := Function.update a.lists q links
    loose := given ++ a.loose.filter fun item => item.1 ∉ addresses taken }

def replace (a : Lists D) (q : Nat) (links : List (Item D)) : Lists D := a.change q links a.next [] []

/-- New data at the index `k`. -/
def insertNew (a : Lists D) (q k : Nat) (data : D) : Lists D :=
  a.change q ((a.lists q).take k ++ (a.next, data) :: (a.lists q).drop k) (a.next + 1) [] []

/-- A loose link at the index `k`. -/
def insertLoose (a : Lists D) (q k link : Nat) : Lists D :=
  match a.loose.find? fun item => item.1 = link with
  | none => a
  | some item => a.change q ((a.lists q).take k ++ item :: (a.lists q).drop k) a.next [item] []

def positionOf (a : Lists D) (q link : Nat) : Nat := (a.lists q).findIdx fun item => item.1 = link

def removeData (a : Lists D) (q n : Nat) : Lists D := a.replace q ((a.lists q).eraseIdx n)

/-- The link at the index `n` becomes loose. -/
def removeLink (a : Lists D) (q n : Nat) : Lists D := a.change q ((a.lists q).eraseIdx n) a.next [] (a.lists q)[n]?.toList

end Lists

def indexAnswer (links : List (Item D)) (accepts : Item D → Bool) : Int :=
  if links.findIdx accepts < links.length then links.findIdx accepts else -1

def QueueCall.effect [DecidableEq D] (a : Lists D) : QueueCall D → Lists D × Answer D
  | allocLink data => (a.change 0 (a.lists 0) (a.next + 1) [] [(a.next, data)], .link a.next)
  | pushHead q data => (a.insertNew q 0 data, .nothing)
  | pushTail q data => (a.insertNew q (a.lists q).length data, .nothing)
  | pushNth q data n => (a.insertNew q (clampIndex (a.lists q).length n) data, .nothing)
  | pushHeadLink q link => (a.insertLoose q 0 link, .nothing)
  | pushTailLink q link => (a.insertLoose q (a.lists q).length link, .nothing)
  | pushNthLink q n link => (a.insertLoose q (clampIndex (a.lists q).length n) link, .nothing)
  | popHead q => (a.removeData q 0, .data ((a.lists q).head?.map Prod.snd))
  | popTail q => (a.removeData q ((a.lists q).length - 1), .data ((a.lists q).getLast?.map Prod.snd))
  | popNth q n => (a.removeData q n, .data ((a.lists q)[n]?.map Prod.snd))
  | popHeadLink q => (a.removeLink q 0, .link ((a.lists q).head?.map Prod.fst))
  | popTailLink q => (a.removeLink q ((a.lists q).length - 1), .link ((a.lists q).getLast?.map Prod.fst))
  | popNthLink q n => (a.removeLink q n, .link ((a.lists q)[n]?.map Prod.fst))
  | peekHead q => (a, .data ((a.lists q).head?.map Prod.snd))
  | peekTail q => (a, .data ((a.lists q).getLast?.map Prod.snd))
  | peekNth q n => (a, .data ((a.lists q)[n]?.map Prod.snd))
  | peekNthLink q n => (a, .link ((a.lists q)[n]?.map Prod.fst))
  | index q data => (a, .number (indexAnswer (a.lists q) fun item => item.2 = data))
  | linkIndex q link => (a, .number (indexAnswer (a.lists q) fun item => item.1 = link))
  | unlink q link => (a.removeLink q (a.positionOf q link), .nothing)
  | deleteLink q link => (a.removeData q (a.positionOf q link), .nothing)
  | remove q data =>
    (a.removeData q ((a.lists q).findIdx fun item => item.2 = data), .flag ((a.lists q).any fun item => item.2 = data))
  | removeAll q data =>
    (a.replace q (without data (a.lists q)), .count ((a.lists q).length - (without data (a.lists q)).length))
  | insertBefore q sibling data => (a.insertNew q (sibling.elim (a.lists q).length (a.positionOf q)) data, .nothing)
  | insertBeforeLink q sibling link => (a.insertLoose q (sibling.elim (a.lists q).length (a.positionOf q)) link, .nothing)
  | insertAfter q sibling data => (a.insertNew q (sibling.elim 0 fun p => a.positionOf q p + 1) data, .nothing)
  | insertAfterLink q sibling link => (a.insertLoose q (sibling.elim 0 fun p => a.positionOf q p + 1) link, .nothing)
  | insertSorted q data func => (a.insertNew q ((a.lists q).findIdx fun item => ¬func item.2 data < 0) data, .nothing)
  | reverse q => (a.replace q (a.lists q).reverse, .nothing)
  | sort q compare => (a.replace q (sortItems compare (a.lists q)), .nothing)
  | copy q result => (a.change result (renumber a.next (a.lists q)) (a.next + (a.lists q).length) [] [], .nothing)
  | clear q => (a.replace q [], .nothing)

def effects [DecidableEq D] (a : Lists D) : List (QueueCall D) → Lists D × List (Answer D)
  | [] => (a, [])
  | call :: calls => ((effects (call.effect a).1 calls).1, (call.effect a).2 :: (effects (call.effect a).1 calls).2)

/-- What the caller promises: a link argument belongs to the queue, or to none where it is to be put into it. -/
def QueueCall.Valid (a : Lists D) : QueueCall D → Prop
  | pushHeadLink _ link | pushTailLink _ link | pushNthLink _ _ link => link ∈ addresses a.loose
  | unlink q link | deleteLink q link => link ∈ addresses (a.lists q)
  | insertBefore q sibling _ | insertAfter q sibling _ => ∀ p, sibling = some p → p ∈ addresses (a.lists q)
  | insertBeforeLink q sibling link | insertAfterLink q sibling link =>
    link ∈ addresses a.loose ∧ ∀ p, sibling = some p → p ∈ addresses (a.lists q)
  | _ => True

def QueueCall.Fits (a : Lists D) : QueueCall D → Prop
  | pushHead q _ | pushTail q _ | pushNth q _ _ | pushHeadLink q _ | pushTailLink q _ | pushNthLink q _ _
  | insertBefore q _ _ | insertBeforeLink q _ _ | insertAfter q _ _ | insertAfterLink q _ _ | insertSorted q _ _ =>
    (a.lists q).length + 1 < 2 ^ 32
  | index q _ | linkIndex q _ => (a.lists q).length ≤ 2 ^ 31
  | _ => True

/-- Every call of the run meets the condition in the abstract state in which it is made. -/
def EveryCall [DecidableEq D] (condition : Lists D → QueueCall D → Prop) : Lists D → List (QueueCall D) → Prop
  | _, [] => True
  | a, call :: calls => condition a call ∧ EveryCall condition (call.effect a).1 calls

section Simulation
variable {p : Nat}

/-- What an operation on one queue has done to the store: the queue now is the list `links`, the links
`taken` have become part of it or have gone, those `given` are loose, and all other links are as before. -/
structure Effect (s : Links D) (old taken : List (Item D)) (t : Links D) (queue : Queue) (links given : List (Item D)) :
    Prop where
  represents : Represents t queue links
  loose : ∀ item ∈ given, t.cell item.1 = some (Item.loose item)
  fresh : t.Fresh
  later : s.next ≤ t.next
  frame : ∀ p, p < s.next → p ∉ addresses old → p ∉ addresses taken → t.cell p = s.cell p
  origin : ∀ p, p ∈ addresses links ∨ p ∈ addresses given →
    (p ∈ addresses old ∨ p ∈ addresses taken) ∨ s.next ≤ p
  apart : ∀ p ∈ addresses given, p ∉ addresses links
  nodup : (addresses given).Nodup

/-- The world holds the lists. -/
structure Agrees (world : QueueWorld D) (a : Lists D) : Prop where
  fresh : world.store.Fresh
  next : a.next = world.store.next
  represents : ∀ q, Represents world.store (world.queue q) (a.lists q)
  small : ∀ q, (a.lists q).length < 2 ^ 32
  apart : ∀ q r, q ≠ r → ∀ p ∈ addresses (a.lists q), p ∉ addresses (a.lists r)
  loose : ∀ item ∈ a.loose, world.store.cell item.1 = some (Item.loose item)
  looseNodup : (addresses a.loose).Nodup
  looseApart : ∀ q, ∀ p ∈ addresses a.loose, p ∉ addresses (a.lists q)

variable {world : QueueWorld D} {a : Lists D} {t : Links D} {queue : Queue} {links taken given : List (Item D)} {q : Nat}

theorem exists_of_mem_addresses {links : List (Item D)} (member : p ∈ addresses links) : ∃ data, (p, data) ∈ links := by
  simpa [addresses] using member

theorem mem_addresses_of_mem {data : D} {links : List (Item D)} (member : (p, data) ∈ links) : p ∈ addresses links :=
  List.mem_map_of_mem member

theorem Agrees.below (agrees : Agrees world a) (member : p ∈ addresses (a.lists q)) : p < world.store.next :=
  agrees.fresh.lt ((agrees.represents q).segment.cell_ne member)

theorem Agrees.looseBelow (agrees : Agrees world a) (member : p ∈ addresses a.loose) : p < world.store.next := by
  obtain ⟨data, inside⟩ := exists_of_mem_addresses member
  refine agrees.fresh.lt ?_
  rw [agrees.loose _ inside]
  exact Option.some_ne_none _

theorem addresses_filter_subset (links : List (Item D)) (keep : Item D → Bool) :
    addresses (links.filter keep) ⊆ addresses links :=
  ((List.filter_sublist).map Prod.fst).subset

theorem Agrees.step (agrees : Agrees world a) (effect : Effect world.store (a.lists q) taken t queue links given)
    (from_loose : ∀ p ∈ addresses taken, p ∈ addresses a.loose) (small : links.length < 2 ^ 32) :
    Agrees { store := t, queue := Function.update world.queue q queue } (a.change q links t.next taken given) := by
  have kept : ∀ r, r ≠ q → ∀ p ∈ addresses (a.lists r), t.cell p = world.store.cell p := by
    intro r other p member
    refine effect.frame p (agrees.below member) (agrees.apart r q other p member) fun inside => ?_
    exact agrees.looseApart r p (from_loose p inside) member
  -- where a link of the changed queue, or one that has just become loose, comes from
  have foreign : ∀ p, p ∈ addresses links ∨ p ∈ addresses given → ∀ r, r ≠ q → p ∉ addresses (a.lists r) := by
    intro p member r other inside
    rcases effect.origin p member with (old | taken) | new
    · exact agrees.apart r q other p inside old
    · exact agrees.looseApart r p (from_loose p taken) inside
    · exact absurd (agrees.below inside) (Nat.not_lt.mpr new)
  have left : ∀ item ∈ a.loose.filter (fun item => item.1 ∉ addresses taken), item ∈ a.loose ∧ item.1 ∉ addresses taken := by
    intro item member
    simpa using member
  have leftAddress : ∀ p ∈ addresses (a.loose.filter fun item => item.1 ∉ addresses taken),
      p ∈ addresses a.loose ∧ p ∉ addresses taken := by
    intro p member
    obtain ⟨data, inside⟩ := exists_of_mem_addresses member
    obtain ⟨loose, out⟩ := left _ inside
    exact ⟨mem_addresses_of_mem loose, out⟩
  have stays : ∀ p, p ∈ addresses links ∨ p ∈ addresses given →
      p ∉ addresses (a.loose.filter fun item => item.1 ∉ addresses taken) := by
    intro p member inside
    obtain ⟨loose, out⟩ := leftAddress p inside
    rcases effect.origin p member with (old | taken) | new
    · exact agrees.looseApart q p loose old
    · exact out taken
    · exact absurd (agrees.looseBelow loose) (Nat.not_lt.mpr new)
  refine ⟨effect.fresh, rfl, fun r => ?_, fun r => ?_, fun r u other p member => ?_, fun item member => ?_, ?_, fun r p member => ?_⟩
  · by_cases same : r = q
    · subst same
      simpa [Lists.change] using effect.represents
    · have before := agrees.represents r
      simp only [Lists.change, Function.update_of_ne same]
      exact ⟨before.segment.congr (kept r same), before.nodup, before.head, before.tail, before.length⟩
  · by_cases same : r = q
    · subst same
      simpa [Lists.change] using small
    · simpa [Lists.change, Function.update_of_ne same] using agrees.small r
  · by_cases first : r = q
    · subst first
      simp only [Lists.change, Function.update_self, Function.update_of_ne other.symm] at member ⊢
      exact foreign p (Or.inl member) u other.symm
    · by_cases second : u = q
      · subst second
        simp only [Lists.change, Function.update_self, Function.update_of_ne first] at member ⊢
        exact fun inside => foreign p (Or.inl inside) r first member
      · simp only [Lists.change, Function.update_of_ne first, Function.update_of_ne second] at member ⊢
        exact agrees.apart r u other p member
  · rcases List.mem_append.mp member with new | old
    · exact effect.loose item new
    · obtain ⟨loose, out⟩ := left item old
      have address : item.1 ∈ addresses a.loose := List.mem_map_of_mem loose
      rw [effect.frame item.1 (agrees.looseBelow address) (agrees.looseApart q _ address) out]
      exact agrees.loose item loose
  · show (addresses (given ++ _)).Nodup
    rw [addresses_append, List.nodup_append]
    refine ⟨effect.nodup, ((List.filter_sublist).map Prod.fst).nodup agrees.looseNodup, fun p new r old same => ?_⟩
    subst same
    exact stays p (Or.inr new) old
  · have shape : p ∈ addresses given ∨ p ∈ addresses (a.loose.filter fun item => item.1 ∉ addresses taken) := by
      rw [← List.mem_append, ← addresses_append]
      exact member
    by_cases same : r = q
    · subst same
      simp only [Lists.change, Function.update_self]
      rcases shape with new | old
      · exact effect.apart p new
      · exact fun inside => stays p (Or.inl inside) old
    · simp only [Lists.change, Function.update_of_ne same]
      rcases shape with new | old
      · exact foreign p (Or.inr new) r same
      · exact agrees.looseApart r p (leftAddress p old).1

section Effects

variable {s : Links D} {front back old : List (Item D)} {item : Item D} {data : D} {after : Queue} {remains : Option (Link D)}

theorem mem_middle {p : Nat} (front : List (Item D)) (item : Item D) (back : List (Item D)) :
    p ∈ addresses (front ++ item :: back) ↔ p = item.1 ∨ p ∈ addresses (front ++ back) := by
  simp only [addresses, List.map_append, List.map_cons, List.mem_append, List.mem_cons]
  grind

theorem Inserted.effect_new (inserted : Inserted s queue front (s.next, data) back t after)
    (represents : Represents s queue (front ++ back)) (fresh : s.Fresh) :
    Effect s (front ++ back) [] t after (front ++ (s.next, data) :: back) [] where
  represents := inserted.represents represents (represents.notMem_next fresh)
  loose _ member := nomatch member
  fresh := inserted.fresh
  later := inserted.next ▸ Nat.le_max_left _ _
  frame p below out _ := inserted.frame out (Nat.ne_of_lt below)
  origin p member := by
    rcases member with inside | given
    · rcases (mem_middle front _ back).mp inside with rfl | old
      · exact Or.inr (Nat.le_refl _)
      · exact Or.inl (Or.inl old)
    · exact nomatch given
  apart _ member := nomatch member
  nodup := List.nodup_nil

theorem Inserted.effect_loose (inserted : Inserted s queue front item back t after)
    (represents : Represents s queue (front ++ back)) (absent : item.1 ∉ addresses (front ++ back)) :
    Effect s (front ++ back) [item] t after (front ++ item :: back) [] where
  represents := inserted.represents represents absent
  loose _ member := nomatch member
  fresh := inserted.fresh
  later := inserted.next ▸ Nat.le_max_left _ _
  frame p _ out other := inserted.frame out fun same => other (by simp [addresses, same])
  origin p member := by
    rcases member with inside | given
    · rcases (mem_middle front _ back).mp inside with rfl | old
      · exact Or.inl (Or.inr (by simp [addresses]))
      · exact Or.inl (Or.inl old)
    · exact nomatch given
  apart _ member := nomatch member
  nodup := List.nodup_nil

theorem Unlinked.effect_freed (unlinked : Unlinked s queue front item back remains t after)
    (represents : Represents s queue (front ++ item :: back)) :
    Effect s (front ++ item :: back) [] t after (front ++ back) [] where
  represents := unlinked.represents represents
  loose _ member := nomatch member
  fresh := unlinked.fresh
  later := Nat.le_of_eq unlinked.next.symm
  frame p _ out _ := unlinked.frame out
  origin p member := by
    rcases member with inside | given
    · exact Or.inl (Or.inl ((mem_middle front _ back).mpr (Or.inr inside)))
    · exact nomatch given
  apart _ member := nomatch member
  nodup := List.nodup_nil

theorem Unlinked.effect_loose (unlinked : Unlinked s queue front item back (some (Item.loose item)) t after)
    (represents : Represents s queue (front ++ item :: back)) :
    Effect s (front ++ item :: back) [] t after (front ++ back) [item] where
  represents := unlinked.represents represents
  loose other member := by
    rw [List.mem_singleton.mp member]
    exact unlinked.here
  fresh := unlinked.fresh
  later := Nat.le_of_eq unlinked.next.symm
  frame p _ out _ := unlinked.frame out
  origin p member := by
    refine Or.inl (Or.inl ((mem_middle front _ back).mpr ?_))
    rcases member with inside | given
    · exact Or.inr inside
    · exact Or.inl (by simpa [addresses] using given)
  apart p member := by
    have same : p = item.1 := by simpa [addresses] using member
    have split := (nodup_split represents.nodup).2
    rw [same, addresses_append, List.mem_append, not_or]
    exact split
  nodup := List.nodup_singleton _

theorem Outside.effect (outside : Outside s t old) (represents : Represents t after links)
    (subset : addresses links ⊆ addresses old) : Effect s old [] t after links [] where
  represents := represents
  loose _ member := nomatch member
  fresh := outside.fresh
  later := Nat.le_of_eq outside.next.symm
  frame p _ out _ := outside.frame p out
  origin p member := by
    rcases member with inside | given
    · exact Or.inl (Or.inl (subset inside))
    · exact nomatch given
  apart _ member := nomatch member
  nodup := List.nodup_nil

end Effects

section Steps

variable {data : D} {after : Queue} {k n link : Nat} {item : Item D}

theorem Lists.replace_self (a : Lists D) (q : Nat) : a.replace q (a.lists q) = a := by
  simp [Lists.replace, Lists.change, addresses]

theorem QueueWorld.same (world : QueueWorld D) (q : Nat) :
    ({ store := world.store, queue := Function.update world.queue q (world.queue q) } : QueueWorld D) = world := by
  simp

theorem length_insert (links : List (Item D)) (k : Nat) (item : Item D) :
    (links.take k ++ item :: links.drop k).length = links.length + 1 := by
  simp only [List.length_append, List.length_cons, List.length_take, List.length_drop]
  omega

theorem Agrees.insertNew (agrees : Agrees world a) (fits : (a.lists q).length + 1 < 2 ^ 32)
    (inserted : Inserted world.store (world.queue q) ((a.lists q).take k) (world.store.next, data) ((a.lists q).drop k) t after) :
    Agrees { store := t, queue := Function.update world.queue q after } (a.insertNew q k data) := by
  have represents := agrees.represents q
  rw [← List.take_append_drop k (a.lists q)] at represents
  have effect := inserted.effect_new represents agrees.fresh
  rw [List.take_append_drop] at effect
  have result := agrees.step effect (fun p member => nomatch member) (by rw [length_insert]; exact fits)
  have next : t.next = world.store.next + 1 := inserted.next.trans (Nat.max_eq_right (Nat.le_succ _))
  rwa [next, ← agrees.next] at result

theorem Agrees.findLoose (agrees : Agrees world a) (member : link ∈ addresses a.loose) :
    ∃ data, (a.loose.find? fun item => item.1 = link) = some (link, data) ∧
      world.store.cell link = some { data := data, next := none, prev := none } := by
  obtain ⟨data, inside⟩ := exists_of_mem_addresses member
  cases found : a.loose.find? fun item => item.1 = link with
  | none => exact absurd (List.find?_eq_none.mp found _ inside) (by simp)
  | some item =>
    have same : item.1 = link := by simpa using List.find?_some found
    refine ⟨item.2, by rw [← same], ?_⟩
    rw [← same]
    exact agrees.loose item (List.mem_of_find?_eq_some found)

theorem Agrees.insertLoose (agrees : Agrees world a) (fits : (a.lists q).length + 1 < 2 ^ 32)
    (found : (a.loose.find? fun item => item.1 = link) = some (link, data))
    (inserted : Inserted world.store (world.queue q) ((a.lists q).take k) (link, data) ((a.lists q).drop k) t after) :
    Agrees { store := t, queue := Function.update world.queue q after } (a.insertLoose q k link) := by
  have member : (link, data) ∈ a.loose := List.mem_of_find?_eq_some found
  have address : link ∈ addresses a.loose := mem_addresses_of_mem member
  have absent := agrees.looseApart q link address
  have represents := agrees.represents q
  rw [← List.take_append_drop k (a.lists q)] at represents absent
  have effect := inserted.effect_loose represents absent
  rw [List.take_append_drop] at effect
  have result := agrees.step effect (fun p inside => by
    have same : p = link := by simpa [addresses] using inside
    exact same ▸ address) (by rw [length_insert]; exact fits)
  have next : t.next = world.store.next :=
    inserted.next.trans (Nat.max_eq_left (agrees.looseBelow address))
  rw [next, ← agrees.next] at result
  rw [Lists.insertLoose, found]
  exact result

theorem eraseIdx_split (front : List (Item D)) (item : Item D) (back : List (Item D)) :
    (front ++ item :: back).eraseIdx front.length = front ++ back := by
  rw [List.eraseIdx_append_of_length_le (Nat.le_refl _), Nat.sub_self]
  rfl

theorem Agrees.removeData {remains : Option (Link D)} {front back : List (Item D)} (agrees : Agrees world a)
    (split : a.lists q = front ++ item :: back)
    (unlinked : Unlinked world.store (world.queue q) front item back remains t after) :
    Agrees { store := t, queue := Function.update world.queue q after } (a.removeData q front.length) := by
  have represents := agrees.represents q
  rw [split] at represents
  have effect := unlinked.effect_freed represents
  rw [← eraseIdx_split front item back, ← split] at effect
  have result := agrees.step effect (fun p member => nomatch member)
    (Nat.lt_of_le_of_lt (List.length_eraseIdx_le _ _) (agrees.small q))
  rwa [unlinked.next, ← agrees.next] at result

theorem Agrees.removeLink {front back : List (Item D)} (agrees : Agrees world a) (split : a.lists q = front ++ item :: back)
    (unlinked : Unlinked world.store (world.queue q) front item back (some (Item.loose item)) t after) :
    Agrees { store := t, queue := Function.update world.queue q after } (a.removeLink q front.length) := by
  have represents := agrees.represents q
  rw [split] at represents
  have effect := unlinked.effect_loose represents
  rw [← eraseIdx_split front item back, ← split] at effect
  have result := agrees.step effect (fun p member => nomatch member)
    (Nat.lt_of_le_of_lt (List.length_eraseIdx_le _ _) (agrees.small q))
  rw [unlinked.next, ← agrees.next] at result
  have here : (a.lists q)[front.length]? = some item := by
    rw [split, List.getElem?_append_right (Nat.le_refl _), Nat.sub_self]
    rfl
  rw [Lists.removeLink, here]
  exact result

theorem Agrees.replace (agrees : Agrees world a) (outside : Outside world.store t (a.lists q))
    (represents : Represents t after links) (subset : addresses links ⊆ addresses (a.lists q))
    (fewer : links.length ≤ (a.lists q).length) :
    Agrees { store := t, queue := Function.update world.queue q after } (a.replace q links) := by
  have result := agrees.step (outside.effect represents subset) (fun p member => nomatch member)
    (Nat.lt_of_le_of_lt fewer (agrees.small q))
  rwa [outside.next, ← agrees.next] at result

theorem findIdx_split {links : List (Item D)} {accepts : Item D → Bool} (found : links.findIdx accepts < links.length) :
    ∃ front item back, links = front ++ item :: back ∧ accepts item = true ∧ links.findIdx accepts = front.length ∧
      links.find? accepts = some item := by
  induction links with
  | nil => cases found
  | cons item links ih =>
    rw [List.findIdx_cons] at found ⊢
    rw [List.find?_cons]
    cases accepted : accepts item with
    | true => exact ⟨[], item, links, rfl, accepted, rfl, rfl⟩
    | false =>
      rw [accepted] at found
      obtain ⟨front, other, back, split, accepts, position, first⟩ := ih (by simpa using found)
      exact ⟨item :: front, other, back, by rw [split]; rfl, accepts, by simp [position], first⟩

theorem position_split {links : List (Item D)} {p : Nat} (member : p ∈ addresses links) :
    ∃ front data back, links = front ++ (p, data) :: back ∧ (links.findIdx fun item => item.1 = p) = front.length := by
  obtain ⟨data, found⟩ := exists_of_mem_addresses member
  obtain ⟨front, item, back, split, accepted, position, -⟩ := @findIdx_split _ links (fun item => item.1 = p)
    (List.findIdx_lt_length_of_exists ⟨(p, data), found, by simp⟩)
  obtain ⟨r, d⟩ := item
  have same : r = p := by simpa using accepted
  subst same
  exact ⟨front, d, back, split, position⟩

theorem take_split (front : List (Item D)) (item : Item D) (back : List (Item D)) :
    (front ++ item :: back).take front.length = front ∧ (front ++ item :: back).drop front.length = item :: back ∧
      (front ++ item :: back).take (front.length + 1) = front ++ [item] ∧
      (front ++ item :: back).drop (front.length + 1) = back := by
  refine ⟨List.take_left' rfl, List.drop_left' rfl, ?_, ?_⟩
  · rw [List.append_cons, List.take_left' (by simp)]
  · rw [List.append_cons, List.drop_left' (by simp)]

theorem firstOr_sibling (a : Lists D) (q : Nat) {sibling : Option Nat}
    (member : ∀ p, sibling = some p → p ∈ addresses (a.lists q)) :
    firstOr ((a.lists q).drop (sibling.elim (a.lists q).length (a.positionOf q))) none = sibling := by
  cases sibling with
  | none => simp
  | some p =>
    obtain ⟨front, data, back, split, position⟩ := position_split (member p rfl)
    have parts := take_split front (p, data) back
    rw [Option.elim_some, Lists.positionOf, position, split, parts.2.1]
    rfl

theorem lastOr_sibling (a : Lists D) (q : Nat) {sibling : Option Nat}
    (member : ∀ p, sibling = some p → p ∈ addresses (a.lists q)) :
    lastOr none ((a.lists q).take (sibling.elim 0 fun p => a.positionOf q p + 1)) = sibling := by
  cases sibling with
  | none => rfl
  | some p =>
    obtain ⟨front, data, back, split, position⟩ := position_split (member p rfl)
    have parts := take_split front (p, data) back
    rw [Option.elim_some, Lists.positionOf, position, split, parts.2.2.1]
    exact lastOr_concat none

theorem Agrees.cut (agrees : Agrees world a) (q k : Nat) :
    Represents world.store (world.queue q) ((a.lists q).take k ++ (a.lists q).drop k) := by
  rw [List.take_append_drop]
  exact agrees.represents q

end Steps

section Calls
variable {sibling : Option Nat} {link n : Nat}
variable [DecidableEq D] {data : D} {k : Nat} {call : QueueCall D} {front back : List (Item D)} {item : Item D}
  {remains : Option (Link D)} {α : Type} {answer : α → Answer D} {result : α}

/-- The call does in the world what it does to the lists. -/
def Simulates (world : QueueWorld D) (a : Lists D) (call : QueueCall D) : Prop :=
  ∃ next, call.perform world = some (next, (call.effect a).2) ∧ Agrees next (call.effect a).1

section Kinds

variable {changing : Option (Links D × Queue)} {answering : Option (α × Links D × Queue)}

theorem simulates_change {b : Lists D} {P : Links D → Queue → Prop} (performs : call.perform world = world.answered q answer answering)
    (effect : call.effect a = (b, answer result)) (spec : ∃ t after, answering = some (result, t, after) ∧ P t after)
    (keeps : ∀ t after, P t after → Agrees { store := t, queue := Function.update world.queue q after } b) :
    Simulates world a call := by
  obtain ⟨t, after, done, holds⟩ := spec
  refine ⟨{ store := t, queue := Function.update world.queue q after }, ?_, ?_⟩
  · rw [performs, effect, done]
    rfl
  · rw [effect]
    exact keeps t after holds

omit [DecidableEq D] in
theorem changed_eq (world : QueueWorld D) (q : Nat) (changing : Option (Links D × Queue)) :
    world.changed q changing = world.answered q (fun _ : Unit => .nothing) (changing.map fun done => ((), done)) := by
  cases changing <;> rfl

omit [DecidableEq D] in
theorem spec_of_changing {P : Links D → Queue → Prop} (spec : ∃ t after, changing = some (t, after) ∧ P t after) :
    ∃ t after, changing.map (fun done => ((), done)) = some ((), t, after) ∧ P t after := by
  obtain ⟨t, after, done, holds⟩ := spec
  exact ⟨t, after, by rw [done]; rfl, holds⟩

theorem simulates_new (agrees : Agrees world a) (performs : call.perform world = world.changed q changing)
    (effect : call.effect a = (a.insertNew q k data, .nothing)) (fits : (a.lists q).length + 1 < 2 ^ 32)
    (spec : ∃ t after, changing = some (t, after) ∧
      Inserted world.store (world.queue q) ((a.lists q).take k) (world.store.next, data) ((a.lists q).drop k) t after) :
    Simulates world a call :=
  simulates_change (performs.trans (changed_eq _ _ _)) effect (spec_of_changing spec) fun _ _ => agrees.insertNew fits

theorem simulates_loose {link : Nat} (agrees : Agrees world a) (performs : call.perform world = world.changed q changing)
    (effect : call.effect a = (a.insertLoose q k link, .nothing)) (fits : (a.lists q).length + 1 < 2 ^ 32)
    (found : (a.loose.find? fun item => item.1 = link) = some (link, data))
    (spec : ∃ t after, changing = some (t, after) ∧
      Inserted world.store (world.queue q) ((a.lists q).take k) (link, data) ((a.lists q).drop k) t after) :
    Simulates world a call :=
  simulates_change (performs.trans (changed_eq _ _ _)) effect (spec_of_changing spec) fun _ _ => agrees.insertLoose fits found

theorem simulates_freed (agrees : Agrees world a) (split : a.lists q = front ++ item :: back)
    (performs : call.perform world = world.answered q answer answering)
    (effect : call.effect a = (a.removeData q front.length, answer result))
    (spec : ∃ t after, answering = some (result, t, after) ∧
      Unlinked world.store (world.queue q) front item back remains t after) : Simulates world a call :=
  simulates_change performs effect spec fun _ _ => agrees.removeData split

theorem simulates_unlinked (agrees : Agrees world a) (split : a.lists q = front ++ item :: back)
    (performs : call.perform world = world.answered q answer answering)
    (effect : call.effect a = (a.removeLink q front.length, answer result))
    (spec : ∃ t after, answering = some (result, t, after) ∧
      Unlinked world.store (world.queue q) front item back (some (Item.loose item)) t after) : Simulates world a call :=
  simulates_change performs effect spec fun _ _ => agrees.removeLink split

theorem simulates_replaced (agrees : Agrees world a) (performs : call.perform world = world.answered q answer answering)
    (effect : call.effect a = (a.replace q links, answer result)) (subset : addresses links ⊆ addresses (a.lists q))
    (fewer : links.length ≤ (a.lists q).length)
    (spec : ∃ t after, answering = some (result, t, after) ∧ Represents t after links ∧
      Outside world.store t (a.lists q)) : Simulates world a call :=
  simulates_change performs effect spec fun _ _ both => agrees.replace both.2 both.1 subset fewer

theorem simulates_asked {asking : Option α} (agrees : Agrees world a) (performs : call.perform world = world.asked answer asking)
    (effect : call.effect a = (a, answer result)) (spec : asking = some result) : Simulates world a call := by
  refine ⟨world, ?_, ?_⟩
  · rw [performs, effect, spec]
    rfl
  · rw [effect]
    exact agrees

end Kinds

theorem simulates_pushHead (agrees : Agrees world a) (fits : (QueueCall.pushHead q data).Fits a) :
    Simulates world a (.pushHead q data) :=
  simulates_new agrees rfl rfl fits (gQueuePushHead_spec (agrees.represents q) agrees.fresh data)

theorem simulates_pushTail (agrees : Agrees world a) (fits : (QueueCall.pushTail q data).Fits a) :
    Simulates world a (.pushTail q data) := by
  refine simulates_new agrees rfl rfl fits ?_
  rw [List.take_length, List.drop_length]
  exact gQueuePushTail_spec (agrees.represents q) agrees.fresh data

theorem simulates_insertBefore (agrees : Agrees world a)
    (valid : (QueueCall.insertBefore q sibling data).Valid a) (fits : (QueueCall.insertBefore q sibling data).Fits a) :
    Simulates world a (.insertBefore q sibling data) := by
  refine simulates_new agrees rfl rfl fits ?_
  have spec := gQueueInsertBefore_spec (agrees.cut q (sibling.elim (a.lists q).length (a.positionOf q))) agrees.fresh data
  rwa [firstOr_sibling a q valid] at spec

theorem simulates_insertAfter (agrees : Agrees world a)
    (valid : (QueueCall.insertAfter q sibling data).Valid a) (fits : (QueueCall.insertAfter q sibling data).Fits a) :
    Simulates world a (.insertAfter q sibling data) := by
  refine simulates_new agrees rfl rfl fits ?_
  have spec := gQueueInsertAfter_spec (agrees.cut q (sibling.elim 0 fun p => a.positionOf q p + 1)) agrees.fresh data
  rwa [lastOr_sibling a q valid] at spec

theorem simulates_pushHeadLink (agrees : Agrees world a) (valid : (QueueCall.pushHeadLink (D := D) q link).Valid a)
    (fits : (QueueCall.pushHeadLink (D := D) q link).Fits a) : Simulates world a (.pushHeadLink q link) := by
  obtain ⟨data, found, loose⟩ := agrees.findLoose valid
  exact simulates_loose agrees rfl rfl fits found
    (gQueuePushHeadLink_spec (agrees.represents q) agrees.fresh loose (agrees.looseApart q link valid))

theorem simulates_pushTailLink (agrees : Agrees world a) (valid : (QueueCall.pushTailLink (D := D) q link).Valid a)
    (fits : (QueueCall.pushTailLink (D := D) q link).Fits a) : Simulates world a (.pushTailLink q link) := by
  obtain ⟨data, found, loose⟩ := agrees.findLoose valid
  refine simulates_loose agrees rfl rfl fits found ?_
  rw [List.take_length, List.drop_length]
  exact gQueuePushTailLink_spec (agrees.represents q) agrees.fresh loose (agrees.looseApart q link valid)

theorem simulates_pushNthLink {n : Int} (agrees : Agrees world a)
    (valid : (QueueCall.pushNthLink (D := D) q n link).Valid a) (fits : (QueueCall.pushNthLink (D := D) q n link).Fits a) :
    Simulates world a (.pushNthLink q n link) := by
  obtain ⟨data, found, loose⟩ := agrees.findLoose valid
  exact simulates_loose agrees rfl rfl fits found
    (gQueuePushNthLink_spec (agrees.represents q) agrees.fresh (agrees.small q) loose (agrees.looseApart q link valid) n)

theorem simulates_insertBeforeLink (agrees : Agrees world a)
    (valid : (QueueCall.insertBeforeLink (D := D) q sibling link).Valid a)
    (fits : (QueueCall.insertBeforeLink (D := D) q sibling link).Fits a) :
    Simulates world a (.insertBeforeLink q sibling link) := by
  obtain ⟨data, found, loose⟩ := agrees.findLoose valid.1
  refine simulates_loose agrees rfl rfl fits found ?_
  have spec := gQueueInsertBeforeLink_spec (agrees.cut q (sibling.elim (a.lists q).length (a.positionOf q))) agrees.fresh loose
    (by rw [List.take_append_drop]; exact agrees.looseApart q link valid.1)
  rwa [firstOr_sibling a q valid.2] at spec

theorem simulates_insertAfterLink (agrees : Agrees world a)
    (valid : (QueueCall.insertAfterLink (D := D) q sibling link).Valid a)
    (fits : (QueueCall.insertAfterLink (D := D) q sibling link).Fits a) :
    Simulates world a (.insertAfterLink q sibling link) := by
  obtain ⟨data, found, loose⟩ := agrees.findLoose valid.1
  refine simulates_loose agrees rfl rfl fits found ?_
  have spec := gQueueInsertAfterLink_spec (agrees.cut q (sibling.elim 0 fun p => a.positionOf q p + 1)) agrees.fresh loose
    (by rw [List.take_append_drop]; exact agrees.looseApart q link valid.1)
  rwa [lastOr_sibling a q valid.2] at spec

omit [DecidableEq D] in
theorem length_split (front : List (Item D)) (item : Item D) (back : List (Item D)) :
    (front ++ item :: back)[front.length]? = some item := by
  rw [List.getElem?_append_right (Nat.le_refl _), Nat.sub_self]
  rfl

theorem simulates_outside {answering : Option (α × Links D × Queue)} (agrees : Agrees world a)
    (beyond : (a.lists q).length ≤ n) (performs : call.perform world = world.answered q answer answering)
    (effect : call.effect a = (a.removeData q n, answer result) ∨ call.effect a = (a.removeLink q n, answer result))
    (spec : answering = some (result, world.store, world.queue q)) : Simulates world a call := by
  have data : a.removeData q n = a := by
    rw [Lists.removeData, List.eraseIdx_of_length_le beyond, Lists.replace_self]
  have link : a.removeLink q n = a := by
    rw [Lists.removeLink, List.eraseIdx_of_length_le beyond, List.getElem?_eq_none beyond]
    exact Lists.replace_self a q
  rw [data, link, or_self] at effect
  refine ⟨{ store := world.store, queue := Function.update world.queue q (world.queue q) }, ?_, ?_⟩
  · rw [performs, effect, spec]
    rfl
  · rw [effect, QueueWorld.same]
    exact agrees

theorem simulates_popHead (agrees : Agrees world a) : Simulates world a (.popHead q) := by
  have represents := agrees.represents q
  cases split : a.lists q with
  | nil =>
    rw [split] at represents
    refine simulates_outside agrees (Nat.le_of_eq (by rw [split]; rfl)) rfl (Or.inl rfl) ?_
    rw [gQueuePopHead, show (world.queue q).head = none from represents.head, split]
    rfl
  | cons item back =>
    rw [split] at represents
    refine simulates_freed agrees split rfl ?_ (gQueuePopHead_spec represents agrees.fresh)
    change (a.removeData q 0, Answer.data ((a.lists q).head?.map Prod.snd)) = _
    rw [split]
    rfl

theorem simulates_popHeadLink (agrees : Agrees world a) : Simulates world a (.popHeadLink q) := by
  have represents := agrees.represents q
  cases split : a.lists q with
  | nil =>
    rw [split] at represents
    refine simulates_outside agrees (Nat.le_of_eq (by rw [split]; rfl)) rfl (Or.inr rfl) ?_
    rw [gQueuePopHeadLink, show (world.queue q).head = none from represents.head, split]
    rfl
  | cons item back =>
    rw [split] at represents
    refine simulates_unlinked agrees split rfl ?_ (gQueuePopHeadLink_spec represents agrees.fresh)
    change (a.removeLink q 0, Answer.link ((a.lists q).head?.map Prod.fst)) = _
    rw [split]
    rfl

theorem simulates_popTail (agrees : Agrees world a) : Simulates world a (.popTail q) := by
  have represents := agrees.represents q
  rcases List.eq_nil_or_concat (a.lists q) with split | ⟨front, item, split⟩
  · rw [split] at represents
    refine simulates_outside agrees (by rw [split]; exact Nat.le_refl _) rfl (Or.inl rfl) ?_
    rw [gQueuePopTail, show (world.queue q).tail = none from represents.tail, split]
    rfl
  · rw [List.concat_eq_append] at split
    rw [split] at represents
    refine simulates_freed agrees split rfl ?_ (gQueuePopTail_spec represents agrees.fresh)
    change (a.removeData q ((a.lists q).length - 1), Answer.data ((a.lists q).getLast?.map Prod.snd)) = _
    rw [split]
    simp

theorem simulates_popTailLink (agrees : Agrees world a) : Simulates world a (.popTailLink q) := by
  have represents := agrees.represents q
  rcases List.eq_nil_or_concat (a.lists q) with split | ⟨front, item, split⟩
  · rw [split] at represents
    refine simulates_outside agrees (by rw [split]; exact Nat.le_refl _) rfl (Or.inr rfl) ?_
    rw [gQueuePopTailLink, show (world.queue q).tail = none from represents.tail, split]
    rfl
  · rw [List.concat_eq_append] at split
    rw [split] at represents
    refine simulates_unlinked agrees split rfl ?_ (gQueuePopTailLink_spec represents agrees.fresh)
    change (a.removeLink q ((a.lists q).length - 1), Answer.link ((a.lists q).getLast?.map Prod.fst)) = _
    rw [split]
    simp

theorem simulates_unlink (agrees : Agrees world a) (valid : (QueueCall.unlink (D := D) q link).Valid a) :
    Simulates world a (.unlink q link) := by
  have represents := agrees.represents q
  obtain ⟨front, data, back, split, position⟩ := position_split valid
  rw [split] at represents
  refine simulates_unlinked agrees split (changed_eq _ _ _) ?_ (spec_of_changing (gQueueUnlink_spec represents agrees.fresh))
  change (a.removeLink q (a.positionOf q link), Answer.nothing) = _
  rw [Lists.positionOf, position]

theorem simulates_deleteLink (agrees : Agrees world a) (valid : (QueueCall.deleteLink (D := D) q link).Valid a) :
    Simulates world a (.deleteLink q link) := by
  have represents := agrees.represents q
  obtain ⟨front, data, back, split, position⟩ := position_split valid
  rw [split] at represents
  refine simulates_freed agrees split (changed_eq _ _ _) ?_ (spec_of_changing (gQueueDeleteLink_spec represents agrees.fresh))
  change (a.removeData q (a.positionOf q link), Answer.nothing) = _
  rw [Lists.positionOf, position]

omit [DecidableEq D] in
theorem index_split {links : List (Item D)} (inside : n < links.length) :
    ∃ front item back, links = front ++ item :: back ∧ n = front.length := by
  refine ⟨links.take n, links[n], links.drop (n + 1), ?_, ?_⟩
  · rw [List.getElem_cons_drop, List.take_append_drop]
  · rw [List.length_take, Nat.min_eq_left (Nat.le_of_lt inside)]

theorem simulates_popNth (agrees : Agrees world a) : Simulates world a (.popNth q n) := by
  have represents := agrees.represents q
  have small := agrees.small q
  have length : (world.queue q).length = (a.lists q).length := represents.length.trans (Nat.mod_eq_of_lt small)
  by_cases inside : n < (a.lists q).length
  · obtain ⟨front, ⟨p, d⟩, back, split, rfl⟩ := index_split inside
    have found := gQueuePeekNthLink_spec represents small front.length
    rw [split] at represents found
    rw [(take_split front (p, d) back).2.1] at found
    obtain ⟨t, after, deleted, unlinked⟩ := gQueueDeleteLink_spec represents agrees.fresh
    have answer : (QueueCall.popNth q front.length).effect a = (a.removeData q front.length, .data (some d)) := by
      change (a.removeData q front.length, Answer.data ((a.lists q)[front.length]?.map Prod.snd)) = _
      rw [split, length_split]
      rfl
    refine simulates_freed agrees split rfl answer ⟨t, after, ?_, unlinked⟩
    rw [gQueuePopNth, length, if_neg (by omega), found]
    simp only [some_bind, firstOr_cons, represents.cell_first, deleted]
  · refine simulates_outside agrees (Nat.le_of_not_lt inside) rfl (Or.inl rfl) ?_
    rw [gQueuePopNth, length, if_pos (Nat.le_of_not_lt inside), List.getElem?_eq_none (Nat.le_of_not_lt inside)]
    rfl

theorem simulates_popNthLink (agrees : Agrees world a) : Simulates world a (.popNthLink q n) := by
  have represents := agrees.represents q
  have small := agrees.small q
  have length : (world.queue q).length = (a.lists q).length := represents.length.trans (Nat.mod_eq_of_lt small)
  by_cases inside : n < (a.lists q).length
  · obtain ⟨front, ⟨p, d⟩, back, split, rfl⟩ := index_split inside
    have found := gQueuePeekNthLink_spec represents small front.length
    rw [split] at represents found
    rw [(take_split front (p, d) back).2.1] at found
    obtain ⟨t, after, deleted, unlinked⟩ := gQueueUnlink_spec represents agrees.fresh
    have answer : (QueueCall.popNthLink q front.length).effect a = (a.removeLink q front.length, .link (some p)) := by
      change (a.removeLink q front.length, Answer.link ((a.lists q)[front.length]?.map Prod.fst)) = _
      rw [split, length_split]
      rfl
    refine simulates_unlinked agrees split rfl answer ⟨t, after, ?_, unlinked⟩
    rw [gQueuePopNthLink, length, if_neg (by omega), found]
    simp only [some_bind, firstOr_cons, deleted]
  · refine simulates_outside agrees (Nat.le_of_not_lt inside) rfl (Or.inr rfl) ?_
    rw [gQueuePopNthLink, length, if_pos (Nat.le_of_not_lt inside), List.getElem?_eq_none (Nat.le_of_not_lt inside)]
    rfl

theorem simulates_remove (agrees : Agrees world a) : Simulates world a (.remove q data) := by
  have represents := agrees.represents q
  have searched := @findLoop_spec _ world.store (a.lists q) none (fun _ node => node.data = data) (fun item => item.2 = data)
    represents.segment (fun item _ link same => by rw [same]) _ (represents.turns agrees.fresh) 0
  rw [← represents.head] at searched
  by_cases inside : ((a.lists q).findIdx fun item => item.2 = data) < (a.lists q).length
  · obtain ⟨front, item, back, split, accepted, position, first⟩ := findIdx_split inside
    rw [split] at represents
    obtain ⟨t, after, deleted, unlinked⟩ := gQueueDeleteLink_spec represents agrees.fresh
    have some_item : ((a.lists q).any fun item => item.2 = data) = true :=
      List.any_eq_true.mpr ⟨item, by rw [split]; simp, accepted⟩
    have answer : (QueueCall.remove q data).effect a = (a.removeData q front.length, .flag true) := by
      change (a.removeData q ((a.lists q).findIdx fun item => item.2 = data),
        Answer.flag ((a.lists q).any fun item => item.2 = data)) = _
      rw [position, some_item]
    refine simulates_freed agrees split rfl answer ⟨t, after, ?_, unlinked⟩
    rw [first] at searched
    simp only [gQueueRemove, xlistFind, searched, some_bind, Option.map_some, deleted]
  · have none_found : (a.lists q).find? (fun item => item.2 = data) = none := by
      rw [List.find?_eq_none]
      intro item member accepted
      exact inside (List.findIdx_lt_length_of_exists ⟨item, member, accepted⟩)
    have no_item : ((a.lists q).any fun item => item.2 = data) = false := by
      rw [List.any_eq_false]
      exact List.find?_eq_none.mp none_found
    refine simulates_outside agrees (Nat.le_of_not_lt inside) rfl (Or.inl rfl) ?_
    rw [none_found] at searched
    simp only [gQueueRemove, xlistFind, searched, some_bind, Option.map_none, no_item]

theorem simulates_removeAll (agrees : Agrees world a) : Simulates world a (.removeAll q data) :=
  simulates_replaced agrees rfl rfl (addresses_filter_subset _ _) (List.length_filter_le _ _)
    (gQueueRemoveAll_spec data (agrees.represents q) agrees.fresh (agrees.small q))

theorem simulates_reverse (agrees : Agrees world a) : Simulates world a (.reverse q) :=
  simulates_replaced agrees (changed_eq _ _ _) rfl (addresses_perm (List.reverse_perm _)).subset
    (Nat.le_of_eq List.length_reverse) (spec_of_changing (gQueueReverse_spec (agrees.represents q) agrees.fresh))

theorem simulates_sort {compare : D → D → Int} (agrees : Agrees world a) : Simulates world a (.sort q compare) :=
  simulates_replaced agrees (changed_eq _ _ _) rfl (addresses_perm (sortItems_perm _ _)).subset
    (Nat.le_of_eq (sortItems_perm _ _).length_eq)
    (spec_of_changing (gQueueSort_spec (agrees.represents q) agrees.fresh compare))

theorem simulates_clear (agrees : Agrees world a) : Simulates world a (.clear q) := by
  obtain ⟨t, cleared, outside⟩ := gQueueClear_spec (agrees.represents q) agrees.fresh
  refine simulates_replaced agrees (changed_eq _ _ _) rfl (List.nil_subset _) (Nat.zero_le _)
    (spec_of_changing ⟨t, gQueueNew, cleared, represents_new t, outside⟩)

omit [DecidableEq D] in
theorem mem_renumber {next p : Nat} {links : List (Item D)} (member : p ∈ addresses (renumber next links)) : next ≤ p := by
  induction links generalizing next with
  | nil => exact nomatch member
  | cons item links ih =>
    rcases List.mem_cons.mp member with rfl | later
    · exact Nat.le_refl _
    · exact Nat.le_of_succ_le (ih later)

omit [DecidableEq D] in
theorem length_renumber (next : Nat) (links : List (Item D)) : (renumber next links).length = links.length := by
  induction links generalizing next with
  | nil => rfl
  | cons item links ih => rw [renumber, List.length_cons, List.length_cons, ih]

theorem simulates_copy {r : Nat} (agrees : Agrees world a) : Simulates world a (.copy q r) := by
  obtain ⟨t, after, copied, represents, frame, fresh, next⟩ := gQueueCopy_spec (agrees.represents q) agrees.fresh
  have effect : Effect world.store (a.lists r) [] t after (renumber world.store.next (a.lists q)) [] :=
    { represents := represents
      loose := fun _ member => nomatch member
      fresh := fresh
      later := by rw [next]; exact Nat.le_add_right _ _
      frame := fun p below _ _ => frame p below
      origin := fun p member => by
        rcases member with inside | given
        · exact Or.inr (mem_renumber inside)
        · exact nomatch given
      apart := fun _ member => nomatch member
      nodup := List.nodup_nil }
  have result := agrees.step effect (fun p member => nomatch member) (by rw [length_renumber]; exact agrees.small q)
  rw [next, ← agrees.next] at result
  refine ⟨_, ?_, result⟩
  simp only [QueueCall.perform, QueueWorld.changed, copied, Option.map_some]
  rfl

theorem simulates_allocLink (agrees : Agrees world a) : Simulates world a (.allocLink data) := by
  have represents := agrees.represents 0
  have absent := represents.notMem_next agrees.fresh
  have kept : ∀ p, p ≠ world.store.next → (xlistAlloc world.store data).2.cell p = world.store.cell p :=
    fun p other => (Store.cell_alloc _ _ _).trans (if_neg other)
  have effect : Effect world.store (a.lists 0) [] (xlistAlloc world.store data).2 (world.queue 0) (a.lists 0)
      [(world.store.next, data)] :=
    { represents :=
        ⟨represents.segment.congr fun p member => kept p fun same => absent (same ▸ member), represents.nodup,
          represents.head, represents.tail, represents.length⟩
      loose := fun item member => by
        rw [List.mem_singleton.mp member]
        exact (Store.cell_alloc _ _ _).trans (if_pos rfl)
      fresh := agrees.fresh.alloc _
      later := Nat.le_succ _
      frame := fun p below _ _ => kept p (Nat.ne_of_lt below)
      origin := fun p member => by
        rcases member with inside | given
        · exact Or.inl (Or.inl inside)
        · have same : p = world.store.next := by simpa [addresses] using given
          exact Or.inr (Nat.le_of_eq same.symm)
      apart := fun p member => by
        have same : p = world.store.next := by simpa [addresses] using member
        rw [same]
        exact absent
      nodup := List.nodup_singleton _ }
  have result := agrees.step effect (List.forall_mem_nil _) (agrees.small 0)
  rw [Function.update_eq_self] at result
  refine ⟨{ world with store := (xlistAlloc world.store data).2 }, ?_, ?_⟩
  · simp only [QueueCall.perform, QueueCall.effect, agrees.next]
    rfl
  · simp only [QueueCall.effect, agrees.next]
    exact result

omit [DecidableEq D] in
theorem toInt_of_lt (small : n < 2 ^ 31) : toInt n = n := by
  unfold toInt
  rw [Int.bmod_eq_of_le (by omega) (by omega)]

omit [DecidableEq D] in
theorem indexAnswer_eq {links : List (Item D)} {accepts : Item D → Bool} (small : links.length ≤ 2 ^ 31) :
    ((links.find? accepts).map fun item => (item.1, 0 + links.findIdx accepts)).elim (-1) (fun found => toInt found.2) =
      indexAnswer links accepts := by
  unfold indexAnswer
  split_ifs with inside
  · obtain ⟨front, item, back, -, -, -, first⟩ := findIdx_split inside
    rw [first, Option.map_some, Option.elim_some, Nat.zero_add, toInt_of_lt (by omega)]
  · have none_found : links.find? accepts = none := by
      rw [List.find?_eq_none]
      intro item member accepted
      exact inside (List.findIdx_lt_length_of_exists ⟨item, member, accepted⟩)
    rw [none_found]
    rfl

theorem simulates_index (agrees : Agrees world a) (fits : (QueueCall.index q data).Fits a) :
    Simulates world a (.index q data) := by
  have represents := agrees.represents q
  have searched := @findLoop_spec _ world.store (a.lists q) none (fun _ node => node.data = data) (fun item => item.2 = data)
    represents.segment (fun item _ link same => by rw [same]) _ (represents.turns agrees.fresh) 0
  rw [← represents.head] at searched
  refine simulates_asked agrees rfl rfl ?_
  simp only [xlistIndex, searched, some_bind, indexAnswer_eq fits]

theorem simulates_linkIndex (agrees : Agrees world a) (fits : (QueueCall.linkIndex (D := D) q link).Fits a) :
    Simulates world a (.linkIndex q link) := by
  have represents := agrees.represents q
  have searched := @findLoop_spec _ world.store (a.lists q) none (fun p _ => p = link) (fun item => item.1 = link)
    represents.segment (fun item _ _ _ => rfl) _ (represents.turns agrees.fresh) 0
  rw [← represents.head] at searched
  refine simulates_asked agrees rfl rfl ?_
  simp only [xlistPosition, searched, some_bind, indexAnswer_eq fits]

omit [DecidableEq D] in
theorem linkData_first {s : Links D} {before : Option Nat} {links : List (Item D)} (segment : Segment s before links none) :
    linkData s (firstOr links none) = some (links.head?.map Prod.snd) := by
  cases links with
  | nil => rfl
  | cons item links => simp [linkData, firstOr, segment.1]

theorem simulates_peekHead (agrees : Agrees world a) : Simulates world a (.peekHead q) := by
  have represents := agrees.represents q
  refine simulates_asked agrees rfl rfl ?_
  rw [gQueuePeekHead, represents.head, linkData_first represents.segment]

theorem simulates_peekTail (agrees : Agrees world a) : Simulates world a (.peekTail q) := by
  have represents := agrees.represents q
  refine simulates_asked agrees rfl rfl ?_
  rw [gQueuePeekTail, represents.tail]
  rcases List.eq_nil_or_concat (a.lists q) with split | ⟨front, ⟨p, d⟩, split⟩
  · rw [split]
    rfl
  · rw [List.concat_eq_append] at split
    rw [split] at represents ⊢
    simp [linkData, represents.cell_first]

theorem simulates_peekNth (agrees : Agrees world a) : Simulates world a (.peekNth q n) := by
  have represents := agrees.represents q
  refine simulates_asked agrees rfl rfl ?_
  have cut := agrees.cut q n
  rw [gQueuePeekNth, gQueuePeekNthLink_spec represents (agrees.small q)]
  simp only [some_bind]
  rw [linkData_first (segment_append.mp cut.segment).2, List.head?_drop]

theorem simulates_peekNthLink (agrees : Agrees world a) : Simulates world a (.peekNthLink q n) := by
  refine simulates_asked agrees rfl rfl ?_
  rw [gQueuePeekNthLink_spec (agrees.represents q) (agrees.small q), firstOr, List.head?_drop, Option.or_none]

theorem simulates (agrees : Agrees world a) (call : QueueCall D) (valid : call.Valid a) (fits : call.Fits a) :
    Simulates world a call := by
  cases call with
  | allocLink data => exact simulates_allocLink agrees
  | pushHead q data => exact simulates_pushHead agrees fits
  | pushTail q data => exact simulates_pushTail agrees fits
  | pushNth q data n =>
    exact simulates_new agrees rfl rfl fits (gQueuePushNth_spec (agrees.represents q) agrees.fresh (agrees.small q) data n)
  | pushHeadLink q link => exact simulates_pushHeadLink agrees valid fits
  | pushTailLink q link => exact simulates_pushTailLink agrees valid fits
  | pushNthLink q n link => exact simulates_pushNthLink agrees valid fits
  | popHead q => exact simulates_popHead agrees
  | popTail q => exact simulates_popTail agrees
  | popNth q n => exact simulates_popNth agrees
  | popHeadLink q => exact simulates_popHeadLink agrees
  | popTailLink q => exact simulates_popTailLink agrees
  | popNthLink q n => exact simulates_popNthLink agrees
  | peekHead q => exact simulates_peekHead agrees
  | peekTail q => exact simulates_peekTail agrees
  | peekNth q n => exact simulates_peekNth agrees
  | peekNthLink q n => exact simulates_peekNthLink agrees
  | index q data => exact simulates_index agrees fits
  | linkIndex q link => exact simulates_linkIndex agrees fits
  | unlink q link => exact simulates_unlink agrees valid
  | deleteLink q link => exact simulates_deleteLink agrees valid
  | remove q data => exact simulates_remove agrees
  | removeAll q data => exact simulates_removeAll agrees
  | insertBefore q sibling data => exact simulates_insertBefore agrees valid fits
  | insertBeforeLink q sibling link => exact simulates_insertBeforeLink agrees valid fits
  | insertAfter q sibling data => exact simulates_insertAfter agrees valid fits
  | insertAfterLink q sibling link => exact simulates_insertAfterLink agrees valid fits
  | insertSorted q data func =>
    exact simulates_new agrees rfl rfl fits (gQueueInsertSorted_spec (agrees.represents q) agrees.fresh data func)
  | reverse q => exact simulates_reverse agrees
  | sort q compare => exact simulates_sort agrees
  | copy q result => exact simulates_copy agrees
  | clear q => exact simulates_clear agrees

end Calls

end Simulation

section Runs

variable {s : Links D} {queue : Queue} {links : List (Item D)}

/-- The addresses met on the way along one field, until it is `NULL`. -/
def chase (s : Links D) (field : Link D → Option Nat) : Nat → Option Nat → Option (List Nat)
  | _, none => some []
  | 0, some _ => none
  | fuel + 1, some p => do
    let node ← s.cell p
    let rest ← chase s field fuel (field node)
    some (p :: rest)

/-- The shape that a queue always has. -/
structure WellLinked (s : Links D) (queue : Queue) (links : List (Item D)) : Prop where
  forward : chase s Link.next (turns s) queue.head = some (addresses links)
  backward : chase s Link.prev (turns s) queue.tail = some (addresses links).reverse
  length : queue.length = links.length
  first : ∀ p, queue.head = some p → (s.cell p).map Link.prev = some none
  last : ∀ p, queue.tail = some p → (s.cell p).map Link.next = some none
  empty : (queue.head = none ↔ queue.tail = none) ∧ (queue.head = none ↔ queue.length = 0)
  data : ∀ item ∈ links, (s.cell item.1).map Link.data = some item.2

theorem chase_next {before : Option Nat} (segment : Segment s before links none) {fuel : Nat} (enough : links.length ≤ fuel) :
    chase s Link.next fuel (firstOr links none) = some (addresses links) := by
  induction links generalizing before fuel with
  | nil => cases fuel <;> rfl
  | cons item links ih =>
    obtain ⟨p, data⟩ := item
    obtain ⟨fuel, rfl⟩ := Nat.exists_eq_succ_of_ne_zero (Nat.ne_zero_of_lt enough)
    have rest := ih segment.2 (Nat.le_of_succ_le_succ enough)
    simp only [firstOr_cons, chase, segment.1, some_bind, rest]
    rfl

theorem chase_prev {after : Option Nat} (segment : Segment s none links after) {fuel : Nat} (enough : links.length ≤ fuel) :
    chase s Link.prev fuel (lastOr none links) = some (addresses links).reverse := by
  induction links using List.reverseRecOn generalizing after fuel with
  | nil => cases fuel <;> rfl
  | append_singleton links item ih =>
    rw [List.length_append, List.length_singleton] at enough
    obtain ⟨fuel, rfl⟩ := Nat.exists_eq_succ_of_ne_zero (Nat.ne_zero_of_lt enough)
    obtain ⟨front, last⟩ := segment_append.mp segment
    have rest := ih front (Nat.le_of_succ_le_succ enough)
    rw [show lastOr none (links ++ [item]) = some item.1 from lastOr_concat none]
    simp only [chase, last.1, some_bind]
    rw [rest]
    simp [addresses]

theorem Represents.wellLinked (represents : Represents s queue links) (fresh : s.Fresh) (small : links.length < 2 ^ 32) :
    WellLinked s queue links := by
  have length : queue.length = links.length := represents.length.trans (Nat.mod_eq_of_lt small)
  have enough := Nat.le_of_lt (represents.turns fresh)
  refine ⟨?_, ?_, length, fun p head => ?_, fun p tail => ?_, ?_, fun item member => ?_⟩
  · rw [represents.head]
    exact chase_next represents.segment enough
  · rw [represents.tail]
    exact chase_prev represents.segment enough
  · obtain ⟨data, back, rfl⟩ := represents.first head
    rw [represents.segment.1]
    rfl
  · obtain ⟨data, front, rfl⟩ := represents.last tail
    rw [represents.cell_first]
    rfl
  · rw [length, represents.head, represents.tail]
    cases links with
    | nil => simp
    | cons item links =>
      obtain ⟨q, last⟩ := lastOr_some item.1 links
      rw [show lastOr none (item :: links) = some q from (lastOr_cons none).trans last]
      simp [firstOr]
  · obtain ⟨front, back, rfl⟩ := List.append_of_mem member
    rw [represents.cell_first]
    rfl

theorem agrees_initial : Agrees (QueueWorld.initial : QueueWorld D) Lists.initial where
  fresh _ _ := rfl
  next := rfl
  represents _ := represents_new _
  small _ := Nat.pow_pos Nat.two_pos
  apart _ _ _ _ member := nomatch member
  loose _ member := nomatch member
  looseNodup := List.nodup_nil
  looseApart _ _ member := nomatch member

variable [DecidableEq D]

theorem performCalls_agrees {calls : List (QueueCall D)} {world : QueueWorld D} {a : Lists D} (agrees : Agrees world a)
    (meets : EveryCall (fun a call => call.Valid a ∧ call.Fits a) a calls) :
    ∃ final, performCalls world calls = some (final, (effects a calls).2) ∧ Agrees final (effects a calls).1 := by
  induction calls generalizing world a with
  | nil => exact ⟨world, rfl, agrees⟩
  | cons call calls ih =>
    obtain ⟨⟨valid, fits⟩, rest⟩ := meets
    obtain ⟨next, performed, after⟩ := simulates agrees call valid fits
    obtain ⟨final, ran, agreement⟩ := ih after rest
    refine ⟨final, ?_, agreement⟩
    simp only [performCalls, performed, some_bind, ran]
    rfl

/-- The run answers as the lists do, and leaves every queue linked as its list. -/
def RunAgrees (calls : List (QueueCall D)) : Prop :=
  ∃ world, performCalls QueueWorld.initial calls = some (world, (effects Lists.initial calls).2) ∧
    ∀ q, WellLinked world.store (world.queue q) ((effects Lists.initial calls).1.lists q)

/-- Runs of valid calls that stay within the integers of the queues agree with the lists; the sort is the
stable sort of a consistent comparison. -/
theorem run_agrees (calls : List (QueueCall D))
    (meets : EveryCall (fun a call => call.Valid a ∧ call.Fits a) Lists.initial calls) :
    RunAgrees calls ∧ ∀ (compare : D → D → Int) (links : List (Item D)), Consistent compare →
      sortItems compare links = links.mergeSort (takesFirst compare) := by
  obtain ⟨world, ran, agreement⟩ := performCalls_agrees agrees_initial meets
  refine ⟨⟨world, ran, fun q => ?_⟩, fun compare links consistent => sortItems_eq_mergeSort consistent links⟩
  exact (agreement.represents q).wellLinked agreement.fresh (agreement.small q)

/-- Links of two queues, one of them copied, with an index beyond the end. -/
theorem run_agrees_sample :
    RunAgrees ([.pushTail 0 5, .pushHead 0 3, .allocLink 9, .pushNthLink 0 7 2, .insertBefore 0 (some 0) 4, .copy 0 1,
      .reverse 1, .unlink 0 0, .popNth 0 1] : List (QueueCall Nat)) :=
  (run_agrees _ (by
    simp [EveryCall, QueueCall.Valid, QueueCall.Fits, QueueCall.effect, Lists.initial, Lists.insertNew, Lists.insertLoose,
      Lists.change, Lists.replace, Lists.positionOf, List.findIdx_cons, addresses, clampIndex])).1

theorem effects_replicate (count : Nat) (data : D) (a : Lists D) :
    ((effects a (List.replicate count (.pushHead 0 data))).1.lists 0).length = (a.lists 0).length + count := by
  induction count generalizing a with
  | zero => rfl
  | succ count ih =>
    rw [List.replicate_succ, effects, ih]
    simp [QueueCall.effect, Lists.insertNew, Lists.change]
    omega

theorem everyCall_replicate (count : Nat) (data : D) (a : Lists D) :
    EveryCall QueueCall.Valid a (List.replicate count (.pushHead 0 data)) := by
  induction count generalizing a with
  | zero => trivial
  | succ count ih => exact ⟨trivial, ih _⟩

theorem length_of_pushHead {world next : QueueWorld D} {data : D} {answer : Answer D}
    (performed : (QueueCall.pushHead 0 data).perform world = some (next, answer)) : (next.queue 0).length < 2 ^ 32 := by
  simp only [QueueCall.perform, QueueWorld.changed, gQueuePushHead, Option.map_eq_some_iff, Option.bind_eq_bind,
    Option.bind_eq_some_iff] at performed
  obtain ⟨_, ⟨_, _, pushed⟩, same⟩ := performed
  obtain ⟨rfl, _⟩ := Prod.mk.inj same
  rw [← Option.some.inj pushed]
  exact Nat.mod_lt _ (Nat.pow_pos Nat.two_pos)

theorem length_of_pushHeads (count : Nat) {world final : QueueWorld D} {data : D} {answers : List (Answer D)}
    (small : (world.queue 0).length < 2 ^ 32)
    (ran : performCalls world (List.replicate count (.pushHead 0 data)) = some (final, answers)) :
    (final.queue 0).length < 2 ^ 32 := by
  induction count generalizing world answers with
  | zero =>
    obtain ⟨rfl, rfl⟩ := Prod.mk.inj (Option.some.inj ran)
    exact small
  | succ count ih =>
    simp only [List.replicate_succ, performCalls, Option.bind_eq_bind, Option.bind_eq_some_iff] at ran
    obtain ⟨⟨next, answer⟩, performed, ⟨last, rest⟩, ran, same⟩ := ran
    obtain ⟨rfl, rfl⟩ := Prod.mk.inj (Option.some.inj same)
    exact ih (length_of_pushHead performed) ran

/-- The length of a queue wraps when it holds 2^32 links. -/
theorem pushed_lengths_wrap :
    ¬∀ calls : List (QueueCall Nat), EveryCall QueueCall.Valid Lists.initial calls → RunAgrees calls := by
  intro claim
  obtain ⟨world, ran, linked⟩ := claim _ (everyCall_replicate (2 ^ 32) 0 Lists.initial)
  have small := length_of_pushHeads (2 ^ 32) (Nat.pow_pos Nat.two_pos) ran
  have length := (linked 0).length
  rw [effects_replicate] at length
  rw [length] at small
  exact absurd small (Nat.not_lt.mpr (Nat.le_add_left _ _))

end Runs

end Xpl.Collections
