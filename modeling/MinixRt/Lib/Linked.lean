import Mathlib.Data.List.Nodup

/-!
# Circular doubly linked lists

Intrusive lists are two maps on nodes, `next` and `prev`. A list is a ring through its
head: `Linked L h xs` says that following `next` from `h` meets the nodes `xs` in order and
comes back to `h`, and that `prev` walks the same ring backwards.

The operations write single links, and each one is described by the ring it leaves and by
the nodes whose links it does not touch, so that disjoint rings are kept by
`Linked.congr`.
-/

namespace MinixRt.Lib

open List Function

/-- The two links of every node. -/
structure Links (ν : Type) where
  next : ν → ν
  prev : ν → ν

namespace Links

variable {ν : Type} [DecidableEq ν] {L : Links ν}

def setNext (L : Links ν) (x y : ν) : Links ν :=
  { L with next := update L.next x y }

def setPrev (L : Links ν) (x y : ν) : Links ν :=
  { L with prev := update L.prev x y }

/-- The node linked to itself. -/
def init (L : Links ν) (h : ν) : Links ν := (L.setNext h h).setPrev h h

/-- Link `new` between the adjacent nodes `before` and `after`. -/
def insert (L : Links ν) (new before after : ν) : Links ν :=
  (((L.setPrev after new).setNext new after).setPrev new before).setNext before new

/-- Link `new` right after `h`. -/
def add (L : Links ν) (new h : ν) : Links ν := L.insert new h (L.next h)

/-- Link `new` right before `h`. -/
def addTail (L : Links ν) (new h : ν) : Links ν := L.insert new (L.prev h) h

/-- Join the two neighbours of `e`; the links of `e` itself stay. -/
def unlink (L : Links ν) (e : ν) : Links ν :=
  (L.setPrev (L.next e) (L.prev e)).setNext (L.prev e) (L.next e)

/-- Unlink `e` and leave the two values `p` and `q` in its own links. -/
def del (L : Links ν) (e p q : ν) : Links ν := ((L.unlink e).setNext e p).setPrev e q

/-- The same links, read backwards. -/
def swap (L : Links ν) : Links ν := ⟨L.prev, L.next⟩

theorem addTail_eq {new h : ν} (hne : new ≠ h) (hprev : new ≠ L.prev h) :
    L.addTail new h = (L.swap.add new h).swap := by
  simp only [addTail, add, insert, setNext, setPrev, swap]
  rw [update_comm hprev, update_comm hne]

@[simp] theorem setNext_next (x y z : ν) :
    (L.setNext x y).next z = if z = x then y else L.next z := by
  simp [setNext, update_apply]

@[simp] theorem setNext_prev (x y z : ν) : (L.setNext x y).prev z = L.prev z := rfl

@[simp] theorem setPrev_prev (x y z : ν) :
    (L.setPrev x y).prev z = if z = x then y else L.prev z := by
  simp [setPrev, update_apply]

@[simp] theorem setPrev_next (x y z : ν) : (L.setPrev x y).next z = L.next z := rfl

theorem insert_next (new before after z : ν) : (L.insert new before after).next z =
    if z = before then new else if z = new then after else L.next z := by
  simp [insert]

theorem insert_prev (new before after z : ν) : (L.insert new before after).prev z =
    if z = new then before else if z = after then new else L.prev z := by
  simp [insert]

theorem unlink_next (e z : ν) :
    (L.unlink e).next z = if z = L.prev e then L.next e else L.next z := by
  simp [unlink]

theorem unlink_prev (e z : ν) :
    (L.unlink e).prev z = if z = L.next e then L.prev e else L.prev z := by
  simp [unlink]

theorem init_of_ne {h x : ν} (hne : x ≠ h) :
    (L.init h).next x = L.next x ∧ (L.init h).prev x = L.prev x := by
  simp [init, hne]

theorem del_of_ne {e x p q : ν} (hne : x ≠ e) :
    (L.del e p q).next x = (L.unlink e).next x ∧ (L.del e p q).prev x = (L.unlink e).prev x := by
  simp [del, hne]

end Links

/-! ## Segments -/

/-- `next` leads from `a` through `xs` to `b`, and `prev` leads back. -/
def Seg {ν : Type} (L : Links ν) : ν → List ν → ν → Prop
  | a, [], b => L.next a = b ∧ L.prev b = a
  | a, x :: xs, b => L.next a = x ∧ L.prev x = a ∧ Seg L x xs b

namespace Seg

variable {ν : Type} {L L' : Links ν} {xs ys : List ν} {a b : ν}

theorem append {y : ν} : Seg L a (xs ++ y :: ys) b ↔ Seg L a xs y ∧ Seg L y ys b := by
  induction xs generalizing a with
  | nil =>
    constructor
    · rintro ⟨h1, h2, h3⟩
      exact ⟨⟨h1, h2⟩, h3⟩
    · rintro ⟨⟨h1, h2⟩, h3⟩
      exact ⟨h1, h2, h3⟩
  | cons x xs ih =>
    constructor
    · rintro ⟨h1, h2, h3⟩
      obtain ⟨h4, h5⟩ := ih.mp h3
      exact ⟨⟨h1, h2, h4⟩, h5⟩
    · rintro ⟨⟨h1, h2, h4⟩, h5⟩
      exact ⟨h1, h2, ih.mpr ⟨h4, h5⟩⟩

/-- Following `next` from the first node meets the nodes in order and ends at `b`. -/
def Walk (L : Links ν) : ν → List ν → ν → Prop
  | a, [], b => a = b
  | a, x :: xs, b => a = x ∧ Walk L (L.next x) xs b

theorem Walk.congr (h : Walk L a xs b) (hnext : ∀ x ∈ xs, L'.next x = L.next x) :
    Walk L' a xs b := by
  induction xs generalizing a with
  | nil => exact h
  | cons x xs ih =>
    refine ⟨h.1, ?_⟩
    rw [hnext x (mem_cons_self ..)]
    exact ih h.2 fun y hy => hnext y (mem_cons_of_mem _ hy)

section

variable (h : Seg L a xs b)
include h

theorem congr (hnext : ∀ x ∈ a :: xs, L'.next x = L.next x)
    (hprev : ∀ x ∈ xs ++ [b], L'.prev x = L.prev x) : Seg L' a xs b := by
  induction xs generalizing a with
  | nil =>
    refine ⟨?_, ?_⟩
    · rw [hnext a (by simp)]
      exact h.1
    · rw [hprev b (by simp)]
      exact h.2
  | cons x xs ih =>
    obtain ⟨h1, h2, h3⟩ := h
    refine ⟨?_, ?_, ih h3 ?_ ?_⟩
    · rw [hnext a (by simp)]
      exact h1
    · rw [hprev x (by simp)]
      exact h2
    · intro y hy
      exact hnext y (mem_cons_of_mem _ hy)
    · intro y hy
      exact hprev y (by simpa using Or.inr hy)

theorem next_mem : L.next a ∈ xs ++ [b] := by
  cases xs with
  | nil | cons x xs => simp [h.1]

theorem prev_mem : L.prev b ∈ a :: xs := by
  induction xs generalizing a with
  | nil => simp [h.2]
  | cons x xs ih => exact mem_cons_of_mem _ (ih h.2.2)

theorem walk : Walk L (L.next a) xs b := by
  induction xs generalizing a with
  | nil => exact h.1
  | cons x xs ih => exact ⟨h.1, ih h.2.2⟩

theorem swap : Seg L.swap b xs.reverse a := by
  induction xs generalizing a with
  | nil => exact ⟨h.2, h.1⟩
  | cons x xs ih =>
    rw [reverse_cons]
    exact append.mpr ⟨ih h.2.2, h.2.1, h.1⟩

end

variable [DecidableEq ν]

theorem unlink {e : ν} (h1 : Seg L a xs e) (h2 : Seg L e ys b) (hxs : (a :: xs).Nodup)
    (hys : (ys ++ [b]).Nodup) (hsep : ∀ x ∈ xs, x ∉ ys ++ [b]) (ha : a ∉ ys) :
    Seg (L.unlink e) a (xs ++ ys) b := by
  induction xs generalizing a with
  | nil =>
    obtain ⟨hnext, hprev⟩ := h1
    cases ys with
    | nil => simp [Seg, Links.unlink_next, Links.unlink_prev, hprev, h2.1]
    | cons y ys =>
      obtain ⟨hy, hy', hrest⟩ := h2
      refine ⟨?_, ?_, hrest.congr ?_ ?_⟩
      · simp [Links.unlink_next, hprev, hy]
      · simp [Links.unlink_prev, hprev, hy]
      · intro x hx
        rw [Links.unlink_next, if_neg]
        rintro rfl
        exact ha (hprev ▸ hx)
      · intro x hx
        rw [Links.unlink_prev, if_neg]
        rintro rfl
        exact (nodup_cons.mp hys).1 (hy ▸ hx)
  | cons x xs ih =>
    obtain ⟨hx, hx', hrest⟩ := h1
    obtain ⟨hnot, hnodup⟩ := nodup_cons.mp hxs
    have hx0 := hsep x (by simp)
    refine ⟨?_, ?_, ih hrest hnodup ?_ ?_⟩
    · rw [Links.unlink_next, if_neg]
      · exact hx
      · intro heq
        exact hnot (heq ▸ hrest.prev_mem)
    · rw [Links.unlink_prev, if_neg]
      · exact hx'
      · intro heq
        exact hx0 (heq ▸ h2.next_mem)
    · intro y hy
      exact hsep y (mem_cons_of_mem _ hy)
    · intro hmem
      exact hx0 (by simp [hmem])

end Seg

/-! ## Rings -/

/-- The list with head `h` holds the nodes `xs`, in this order. -/
def Linked {ν : Type} (L : Links ν) (h : ν) (xs : List ν) : Prop :=
  Seg L h xs h ∧ (h :: xs).Nodup

namespace Linked

variable {ν : Type} {L L' : Links ν} {h new e x p q : ν} {xs ys zs : List ν}

theorem next_first (hr : Linked L h (x :: xs)) : L.next x = xs.headD h := by
  cases xs with
  | nil | cons y xs => exact hr.1.2.2.1

variable (hr : Linked L h xs)
include hr

theorem congr (hsame : ∀ x ∈ h :: xs, L'.next x = L.next x ∧ L'.prev x = L.prev x) :
    Linked L' h xs := by
  refine ⟨hr.1.congr ?_ ?_, hr.2⟩
  · intro x hx
    exact (hsame x hx).1
  · intro x hx
    refine (hsame x ?_).2
    simpa [or_comm] using hx

theorem next_mem : L.next h ∈ h :: xs := by
  simpa [or_comm] using hr.1.next_mem

theorem prev_mem : L.prev h ∈ h :: xs := hr.1.prev_mem

theorem next_head : L.next h = xs.headD h := by
  cases xs with
  | nil | cons x xs => exact hr.1.1

theorem swap : Linked L.swap h xs.reverse := by
  refine ⟨hr.1.swap, ?_⟩
  simpa using hr.2

theorem prev_head : L.prev h = xs.reverse.headD h := hr.swap.next_head

theorem links_mem (he : e ∈ xs) : L.next e ∈ h :: xs ∧ L.prev e ∈ h :: xs := by
  obtain ⟨ys, zs, rfl⟩ := append_of_mem he
  obtain ⟨h1, h2⟩ := Seg.append.mp hr.1
  have hnext := h2.next_mem
  have hprev := h1.prev_mem
  simp only [mem_cons, mem_append, not_mem_nil] at hnext hprev ⊢
  tauto

variable [DecidableEq ν]

omit hr in
theorem init (L : Links ν) (h : ν) : Linked (L.init h) h [] := by
  refine ⟨⟨?_, ?_⟩, by simp⟩ <;> simp [Links.init]

theorem add (hnew : new ∉ h :: xs) : Linked (L.add new h) h (new :: xs) := by
  obtain ⟨hseg, hnodup⟩ := hr
  have hne : new ≠ h := fun heq => hnew (by simp [heq])
  refine ⟨⟨?_, ?_, ?_⟩, ?_⟩
  · simp [Links.add, Links.insert_next]
  · simp [Links.add, Links.insert_prev]
  · cases xs with
    | nil =>
      refine ⟨?_, ?_⟩
      · simp [Links.add, Links.insert_next, hne, hseg.1]
      · simp [Links.add, Links.insert_prev, hne.symm, hseg.1]
    | cons x xs =>
      obtain ⟨hx, hx', hrest⟩ := hseg
      have hnx : x ≠ new := fun heq => hnew (by simp [heq])
      refine ⟨?_, ?_, hrest.congr ?_ ?_⟩
      · simp [Links.add, Links.insert_next, hne, hx]
      · simp [Links.add, Links.insert_prev, hnx, hx]
      · intro y hy
        have hyh : y ≠ h := fun heq => (nodup_cons.mp hnodup).1 (heq ▸ hy)
        have hyn : y ≠ new := fun heq => hnew (heq ▸ mem_cons_of_mem _ hy)
        simp [Links.add, Links.insert_next, hyh, hyn]
      · intro y hy
        have hyx : y ≠ x := by
          rintro rfl
          simp only [mem_append, mem_singleton] at hy
          simp only [nodup_cons, mem_cons, not_or] at hnodup
          rcases hy with hy | hy
          · exact hnodup.2.1 hy
          · exact hnodup.1.1 hy.symm
        have hyn : y ≠ new := by
          rintro rfl
          simp only [mem_append, mem_singleton] at hy
          rcases hy with hy | hy
          · exact hnew (by simp [hy])
          · exact hne hy
        simp [Links.add, Links.insert_prev, hyx, hyn, hx]
  · simp only [nodup_cons, mem_cons, not_or] at hnodup hnew ⊢
    exact ⟨⟨hne.symm, hnodup.1⟩, hnew.2, hnodup.2⟩

theorem add_frame (hx : x ∉ h :: xs) (hne : x ≠ new) :
    (L.add new h).next x = L.next x ∧ (L.add new h).prev x = L.prev x := by
  have hh : x ≠ h := fun heq => hx (by simp [heq])
  have hn : x ≠ L.next h := fun heq => hx (heq ▸ hr.next_mem)
  exact ⟨by simp [Links.add, Links.insert_next, hh, hne],
    by simp [Links.add, Links.insert_prev, hn, hne]⟩

theorem addTail_eq (hnew : new ∉ h :: xs) : L.addTail new h = (L.swap.add new h).swap := by
  refine Links.addTail_eq ?_ ?_
  · rintro rfl
    exact hnew (by simp)
  · rintro rfl
    exact hnew hr.prev_mem

theorem addTail (hnew : new ∉ h :: xs) : Linked (L.addTail new h) h (xs ++ [new]) := by
  have hadd := (hr.swap.add (by simpa using hnew : new ∉ h :: xs.reverse)).swap
  rw [reverse_cons, reverse_reverse] at hadd
  rwa [hr.addTail_eq hnew]

theorem addTail_frame (hnew : new ∉ h :: xs) (hx : x ∉ h :: xs) (hne : x ≠ new) :
    (L.addTail new h).next x = L.next x ∧ (L.addTail new h).prev x = L.prev x := by
  rw [hr.addTail_eq hnew]
  exact (hr.swap.add_frame (by simpa using hx) hne).symm

omit hr in
theorem unlink (hr : Linked L h (ys ++ e :: zs)) : Linked (L.unlink e) h (ys ++ zs) := by
  obtain ⟨hseg, hnodup⟩ := hr
  obtain ⟨h1, h2⟩ := Seg.append.mp hseg
  have hall := hnodup
  simp only [nodup_cons, mem_append, mem_cons, nodup_append, not_or]
    at hall
  obtain ⟨⟨hhy, hhe, hhz⟩, hys, ⟨hez, hzs⟩, hsep⟩ := hall
  refine ⟨h1.unlink h2 ?_ ?_ ?_ hhz, ?_⟩
  · exact nodup_cons.mpr ⟨hhy, hys⟩
  · refine nodup_append.mpr ⟨hzs, by simp, ?_⟩
    rintro z hz w hw rfl
    exact hhz (mem_singleton.mp hw ▸ hz)
  · intro y hy hmem
    rcases mem_append.mp hmem with hz | hh
    · exact hsep y hy y (.inr hz) rfl
    · exact hhy (mem_singleton.mp hh ▸ hy)
  · refine hnodup.sublist ?_
    simp

/-- Unlinking a node of one ring leaves the nodes outside it as they were. -/
theorem unlink_frame (he : e ∈ xs) (hx : x ∉ h :: xs) :
    (L.unlink e).next x = L.next x ∧ (L.unlink e).prev x = L.prev x := by
  obtain ⟨hnext, hprev⟩ := hr.links_mem he
  rw [Links.unlink_next, Links.unlink_prev, if_neg, if_neg]
  · exact ⟨rfl, rfl⟩
  · intro heq
    exact hx (heq ▸ hnext)
  · intro heq
    exact hx (heq ▸ hprev)

omit hr in
theorem del (hr : Linked L h (ys ++ e :: zs)) : Linked (L.del e p q) h (ys ++ zs) := by
  refine hr.unlink.congr fun x hx => Links.del_of_ne ?_
  rintro rfl
  have hnodup := hr.2
  simp only [nodup_cons, mem_append, mem_cons, nodup_append, not_or]
    at hnodup hx
  obtain ⟨⟨_, hhe, _⟩, _, ⟨hez, _⟩, hsep⟩ := hnodup
  rcases hx with hx | hx | hx
  · exact hhe hx.symm
  · exact hsep x hx x (.inl rfl) rfl
  · exact hez hx

theorem del_frame (he : e ∈ xs) (hx : x ∉ h :: xs) :
    (L.del e p q).next x = L.next x ∧ (L.del e p q).prev x = L.prev x := by
  have hne : x ≠ e := fun heq => hx (heq ▸ mem_cons_of_mem _ he)
  obtain ⟨h1, h2⟩ := Links.del_of_ne (L := L) (p := p) (q := q) hne
  obtain ⟨h3, h4⟩ := hr.unlink_frame he hx
  exact ⟨h1.trans h3, h2.trans h4⟩

end Linked

/-! ## Families of lists -/

/-- Where the list heads and the list entries lie among the nodes. -/
structure Layout (ν η ε : Type) where
  head : η → ν
  entry : ε → ν
  head_injective : Function.Injective head
  entry_injective : Function.Injective entry
  head_ne_entry : ∀ h e, head h ≠ entry e

/-- Every list with a valid head holds exactly the entries that are placed on it. -/
structure Lists {ν η ε : Type} (Y : Layout ν η ε) (L : Links ν) (valid : η → Prop)
    (place : ε → Option η) (mem : η → List ε) : Prop where
  linked : ∀ h, valid h → Linked L (Y.head h) ((mem h).map Y.entry)
  mem_iff : ∀ h e, valid h → (e ∈ mem h ↔ place e = some h)

namespace Lists

variable {ν η ε : Type} {Y : Layout ν η ε} {L : Links ν} {valid : η → Prop}
  {place : ε → Option η} {mem : η → List ε} {h k : η} {e : ε}

/-- The head of a list that is not `h`, or an entry that is not placed on `h`, is no node
of the list `h`. -/
theorem head_notMem (hne : k ≠ h) : Y.head k ∉ Y.head h :: (mem h).map Y.entry := by
  intro hmem
  rcases mem_cons.mp hmem with heq | hmem
  · exact hne (Y.head_injective heq)
  · obtain ⟨e, _, heq⟩ := mem_map.mp hmem
    exact Y.head_ne_entry k e heq.symm

variable (hl : Lists Y L valid place mem)
include hl

theorem nodup (hv : valid h) : (mem h).Nodup :=
  (nodup_cons.mp (hl.linked h hv).2).2.of_map

theorem entry_notMem (hv : valid h) (he : place e ≠ some h) :
    Y.entry e ∉ Y.head h :: (mem h).map Y.entry := by
  intro hmem
  rcases mem_cons.mp hmem with heq | hmem
  · exact Y.head_ne_entry h e heq.symm
  · obtain ⟨c, hc, heq⟩ := mem_map.mp hmem
    rw [Y.entry_injective heq] at hc
    exact he ((hl.mem_iff h e hv).mp hc)

theorem separate (hv : valid h) (kv : valid k) (hne : k ≠ h) {x : ν}
    (hx : x ∈ Y.head k :: (mem k).map Y.entry) : x ∉ Y.head h :: (mem h).map Y.entry := by
  rcases mem_cons.mp hx with rfl | hx
  · exact head_notMem hne
  · obtain ⟨e, he, rfl⟩ := mem_map.mp hx
    refine hl.entry_notMem hv ?_
    rw [(hl.mem_iff k e kv).mp he]
    intro heq
    exact hne (Option.some.inj heq)

theorem restrict {valid' : η → Prop} (hsub : ∀ h, valid' h → valid h) :
    Lists Y L valid' place mem :=
  ⟨fun h hv => hl.linked h (hsub h hv), fun h e hv => hl.mem_iff h e (hsub h hv)⟩

/-- The lists do not depend on where entries are placed outside the valid heads. -/
theorem replace {place' : ε → Option η}
    (hp : ∀ h e, valid h → (place' e = some h ↔ place e = some h)) : Lists Y L valid place' mem :=
  ⟨hl.linked, fun h e hv => (hl.mem_iff h e hv).trans (hp h e hv).symm⟩

variable [DecidableEq ν]

theorem initEntry (he : place e = none) : Lists Y (L.init (Y.entry e)) valid place mem := by
  refine ⟨?_, hl.mem_iff⟩
  intro h hv
  refine (hl.linked h hv).congr fun x hx => Links.init_of_ne ?_
  rintro rfl
  exact hl.entry_notMem hv (by simp [he]) hx

variable [DecidableEq η]

theorem initHead (k : η) (hk : ∀ e, place e ≠ some k) :
    Lists Y (L.init (Y.head k)) (fun h => h = k ∨ valid h) place (update mem k []) := by
  refine ⟨?_, ?_⟩
  · intro h hv
    by_cases hhk : h = k
    · subst hhk
      simpa using Linked.init L (Y.head h)
    · rw [update_of_ne hhk]
      refine (hl.linked h (hv.resolve_left hhk)).congr fun x hx => Links.init_of_ne ?_
      rintro rfl
      exact head_notMem (Ne.symm hhk) hx
  · intro h e hv
    by_cases hhk : h = k
    · subst hhk
      simpa using hk e
    · rw [update_of_ne hhk]
      exact hl.mem_iff h e (hv.resolve_left hhk)

variable [DecidableEq ε]

omit [DecidableEq ν] in
/-- An entry on no list is linked into the ring of `k`, in front or at the end. -/
theorem insert {L' : Links ν} {ys : List ε} (kv : valid k) (he : place e = none)
    (hys : ∀ c, c ∈ ys ↔ c = e ∨ c ∈ mem k) (hring : Linked L' (Y.head k) (ys.map Y.entry))
    (hframe : ∀ x ∉ Y.head k :: (mem k).map Y.entry, x ≠ Y.entry e →
      L'.next x = L.next x ∧ L'.prev x = L.prev x) :
    Lists Y L' valid (update place e (some k)) (update mem k ys) := by
  refine ⟨?_, ?_⟩
  · intro h hv
    by_cases hhk : h = k
    · subst hhk
      simpa using hring
    · rw [update_of_ne hhk]
      refine (hl.linked h hv).congr fun x hx => hframe x (hl.separate kv hv hhk hx) ?_
      rintro rfl
      exact hl.entry_notMem hv (by simp [he]) hx
  · intro h c hv
    have hmem := hl.mem_iff h c hv
    by_cases hce : c = e
    · subst hce
      by_cases hhk : h = k
      · simp [hhk, hys]
      · rw [update_of_ne hhk, update_self, hmem, he]
        simp [Ne.symm hhk]
    · rw [update_of_ne hce, ← hmem]
      by_cases hhk : h = k
      · subst hhk
        simp [hys, hce]
      · rw [update_of_ne hhk]

theorem add (kv : valid k) (he : place e = none) :
    Lists Y (L.add (Y.entry e) (Y.head k)) valid (update place e (some k))
      (update mem k (e :: mem k)) := by
  have hnot := hl.entry_notMem kv (by simp [he] : place e ≠ some k)
  refine hl.insert kv he (by simp) ?_ ?_
  · exact (hl.linked k kv).add hnot
  · exact fun x hx hne => (hl.linked k kv).add_frame hx hne

theorem addTail (kv : valid k) (he : place e = none) :
    Lists Y (L.addTail (Y.entry e) (Y.head k)) valid (update place e (some k))
      (update mem k (mem k ++ [e])) := by
  have hnot := hl.entry_notMem kv (by simp [he] : place e ≠ some k)
  refine hl.insert kv he (by simp [or_comm]) ?_ ?_
  · rw [map_append]
    exact (hl.linked k kv).addTail hnot
  · exact fun x hx hne => (hl.linked k kv).addTail_frame hnot hx hne

theorem del {p q : ν} (kv : valid k) (he : place e = some k) :
    Lists Y (L.del (Y.entry e) p q) valid (update place e none) (update mem k ((mem k).erase e))
    := by
  have hek : e ∈ mem k := (hl.mem_iff k e kv).mpr he
  refine ⟨?_, ?_⟩
  · intro h hv
    by_cases hhk : h = k
    · subst hhk
      obtain ⟨ys, zs, hsplit⟩ := append_of_mem hek
      have hnot : e ∉ ys := by
        intro hmem
        have hnodup := hl.nodup kv
        rw [hsplit, nodup_append] at hnodup
        exact hnodup.2.2 e hmem e (by simp) rfl
      have hlinked := hl.linked h hv
      rw [hsplit, map_append, map_cons] at hlinked
      rw [update_self, hsplit, erase_append_right _ hnot,
        erase_cons_head, map_append]
      exact hlinked.del
    · rw [update_of_ne hhk]
      refine (hl.linked h hv).congr fun x hx => ?_
      exact (hl.linked k kv).del_frame (mem_map_of_mem hek) (hl.separate kv hv hhk hx)
  · intro h c hv
    have hmem := hl.mem_iff h c hv
    by_cases hce : c = e
    · subst hce
      by_cases hhk : h = k
      · subst hhk
        simpa using (hl.nodup kv).not_mem_erase
      · rw [update_of_ne hhk, update_self, hmem, he]
        simp [Ne.symm hhk]
    · rw [update_of_ne hce, ← hmem]
      by_cases hhk : h = k
      · subst hhk
        simpa using mem_erase_of_ne hce
      · rw [update_of_ne hhk]

end Lists

end MinixRt.Lib
