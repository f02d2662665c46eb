import MinixRt.PageAlloc.Pools

/-!
# Batches

`free_pcppages_bulk` moves the last pages of the list of a CPU to a local list and frees them
from there, walking the local list while its pages are linked into the free lists;
`rmqueue_bulk` refills the list of a CPU. The pages on the local list count as held.
-/

namespace MinixRt.PageAlloc

open List MinixRt.Lib

variable {ζ : Type} [DecidableEq ζ] {C : Config ζ} {cpus : List Nat} {s s' : Zones ζ}
  {v v' : View ζ} {held : Set (ζ × Block)} {z : ζ} {cpu : Nat}

def singles (z : ζ) (ys : List Nat) : Set (ζ × Block) := {p | ∃ y ∈ ys, p = (z, ⟨y, 0⟩)}

omit [DecidableEq ζ] in
theorem covers_single {x y : Nat} : (⟨y, 0⟩ : Block).Covers x ↔ x = y := by
  simp only [Block.Covers, Nat.pow_zero]
  omega

theorem addCount_pcp (s : Zones ζ) (z : ζ) (cpu : Nat) (n m : Int) :
    ((s.addCount z cpu n).addCount z cpu m).pcp = (s.addCount z cpu (n + m)).pcp := by
  simp [Zones.addCount, Int.add_assoc]

theorem addCount_congr (h : s'.pcp = s.pcp) (z : ζ) (cpu : Nat) (n : Int) :
    (s'.addCount z cpu n).pcp = (s.addCount z cpu n).pcp := by
  simp [Zones.addCount, h]

omit [DecidableEq ζ] in
theorem listLast_eq {valid : ListHead ζ → Prop} {place : Nat → Option (ListHead ζ)}
    {mem : ListHead ζ → List Nat} (h : Lists (layout ζ) s.links valid place mem) {k : ListHead ζ}
    (hk : valid k) {xs : List Nat} {x : Nat} (hmem : mem k = xs ++ [x]) :
    s.listLast k = some x := by
  have hprev := (h.linked k hk).prev_head
  change s.links.prev (.head k) = _ at hprev
  rw [hmem] at hprev
  unfold Zones.listLast
  rw [hprev]
  simp [layout]

/-! ## Detaching -/

/-- The pages `ys` are on the local list, idle, and not held otherwise. -/
structure Detached (C : Config ζ) (cpus : List Nat) (z : ζ) (s : Zones ζ) (v : View ζ)
    (held : Set (ζ × Block)) (ys : List Nat) : Prop where
  pools : Pools C cpus s v (held ∪ singles z ys)
  linked : Linked s.links (.head .bulk) (ys.map .lru)
  idle : ∀ y ∈ ys, Idle s y
  fresh : ∀ y ∈ ys, (z, ⟨y, 0⟩) ∉ held

theorem Pools.detached (h : Pools C cpus s v held) (z : ζ) :
    Detached C cpus z { s with links := s.links.init (.head .bulk) } v held [] := by
  have hempty : held ∪ singles z [] = held := by
    ext p
    simp [singles]
  have htouch := h.touch (t := { s with links := s.links.init (.head .bulk) }) (T := ∅)
    (Set.empty_subset _) (fun _ _ => rfl) (fun n hn _ => Links.init_of_ne hn) rfl nofun
  refine ⟨?_, Linked.init _ _, nofun, nofun⟩
  rw [hempty]
  exact htouch.1

theorem Detached.step {ys xs : List Nat} {x : Nat} (h : Detached C cpus z s v held ys)
    (hcpu : cpu ∈ cpus) (hmem : v.mem (.pcp z cpu) = xs ++ [x]) :
    Detached C cpus z (((s.listDel x).addCount z cpu (-1)).listAddTail x .bulk)
        (v.pop (.pcp z cpu) x) held (ys ++ [x]) ∧
      Kept held s (((s.listDel x).addCount z cpu (-1)).listAddTail x .bulk) ∧
      (v.pop (.pcp z cpu) x).mem (.pcp z cpu) = xs := by
  have hx : x ∈ v.mem (.pcp z cpu) := by simp [hmem]
  obtain ⟨hpools, hkept, hfresh, hidle⟩ := h.pools.pop hcpu hx
  have hk := inUse_pcp (C := C) (z := z) hcpu
  have hset : insert (z, ⟨x, 0⟩) (held ∪ singles z ys) = held ∪ singles z (ys ++ [x]) := by
    ext p
    simp only [singles, Set.mem_insert_iff, Set.mem_union, Set.mem_ofPred_eq, mem_append,
      mem_singleton]
    constructor
    · rintro (rfl | hp | ⟨y, hy, rfl⟩)
      · exact .inr ⟨x, .inr rfl, rfl⟩
      · exact .inl hp
      · exact .inr ⟨y, .inl hy, rfl⟩
    · rintro (hp | ⟨y, hy | rfl, rfl⟩)
      · exact .inr (.inl hp)
      · exact .inr (.inr ⟨y, hy, rfl⟩)
      · exact .inl rfl
  rw [hset] at hpools
  have hxys : x ∉ ys := fun hy => hfresh (.inr ⟨x, hy, rfl⟩)
  have hring : Linked (s.listDel x).links (.head .bulk) (ys.map .lru) := by
    refine h.linked.congr fun n hn => ?_
    refine (h.pools.buddy.lists.linked _ hk).del_frame (mem_map_of_mem hx) ?_
    rcases mem_cons.mp hn with rfl | hn
    · exact Lists.head_notMem (Y := layout ζ) nofun
    · obtain ⟨y, hy, rfl⟩ := mem_map.mp hn
      refine h.pools.buddy.lists.entry_notMem hk ?_
      rw [h.pools.place z ⟨y, 0⟩ (.inr ⟨y, hy, rfl⟩)]
      exact nofun
  have hnew : (Node.lru x : Node ζ) ∉ .head .bulk :: ys.map .lru := by simp [hxys]
  have htouch := hpools.touch (t := ((s.listDel x).addCount z cpu (-1)).listAddTail x .bulk)
    (T := singles z (ys ++ [x])) Set.subset_union_right (fun _ _ => rfl) (fun n hn hT => by
      refine hring.addTail_frame hnew ?_ ?_
      · intro hmem
        rcases mem_cons.mp hmem with rfl | hmem
        · exact hn rfl
        · obtain ⟨y, hy, rfl⟩ := mem_map.mp hmem
          exact hT _ ⟨y, by simp [hy], rfl⟩ y (Block.covers_base _) rfl
      · exact hT _ ⟨x, by simp, rfl⟩ x (Block.covers_base _)) rfl
    (fun p hp y hy => hpools.buddy.not_buddy_of_alloc
      (hpools.inHand (z := p.1) (b := p.2) (.inr hp)).alloc hy)
  have hheld : held ⊆ (held ∪ singles z (ys ++ [x])) \ singles z (ys ++ [x]) := by
    intro p hp
    refine ⟨.inl hp, ?_⟩
    rintro ⟨y, hy, rfl⟩
    rcases mem_append.mp hy with hy | hy
    · exact h.fresh y hy hp
    · rw [mem_singleton.mp hy] at hp
      exact hfresh (.inl hp)
  refine ⟨⟨htouch.1, ?_, ?_, ?_⟩, ?_, ?_⟩
  · rw [map_append]
    exact hring.addTail hnew
  · intro y hy
    have hi : Idle (s.listDel x) y := by
      rcases mem_append.mp hy with hy | hy
      · exact hkept.idle (.inr ⟨y, hy, rfl⟩) (Block.covers_base _) (h.idle y hy)
      · rw [mem_singleton.mp hy]
        exact hidle
    exact hi.of_tail hi.quiet (pageTail_of_listAddTail (s := (s.listDel x).addCount z cpu (-1)))
  · intro y hy
    rcases mem_append.mp hy with hy | hy
    · exact h.fresh y hy
    · rw [mem_singleton.mp hy]
      exact fun hp => hfresh (.inl hp)
  · exact (hkept.mono Set.subset_union_left).trans (htouch.2.mono hheld)
  · have hnodup := h.pools.buddy.lists.nodup hk
    rw [hmem, nodup_append] at hnodup
    have hnot : x ∉ xs := fun hxs => hnodup.2.2 x hxs x (by simp) rfl
    simp only [View.pop, Function.update_self, hmem]
    rw [erase_append_right _ hnot, erase_cons_head, append_nil]

/-- The list of one CPU holds `xs` now, and its counter has changed by `n`; the other lists and
counters are as they were. -/
structure Recounted (z : ζ) (cpu : Nat) (xs : List Nat) (n : Int) (s : Zones ζ) (v : View ζ)
    (s' : Zones ζ) (v' : View ζ) : Prop where
  mem : v'.mem (.pcp z cpu) = xs
  other : ∀ z' cpu', (z', cpu') ≠ (z, cpu) → v'.mem (.pcp z' cpu') = v.mem (.pcp z' cpu')
  pcp : s'.pcp = (s.addCount z cpu n).pcp

theorem Recounted.trans {xs ys : List Nat} {n m : Int} {s'' : Zones ζ} {v'' : View ζ}
    (h1 : Recounted z cpu xs n s v s' v') (h2 : Recounted z cpu ys m s' v' s'' v'') :
    Recounted z cpu ys (n + m) s v s'' v'' where
  mem := h2.mem
  other z' cpu' hne := (h2.other z' cpu' hne).trans (h1.other z' cpu' hne)
  pcp := by rw [h2.pcp, addCount_congr h1.pcp, addCount_pcp]

theorem detach_spec (hcpu : cpu ∈ cpus) (l : List Nat) {ys rest : List Nat} (batchFree : Nat)
    (h : Detached C cpus z s v held ys) (hmem : v.mem (.pcp z cpu) = rest ++ l.reverse) :
    ∃ s' v', detach z cpu l.length batchFree s = some s' ∧
      Detached C cpus z s' v' held (ys ++ l) ∧ Kept held s s' ∧
      Recounted z cpu rest (-l.length) s v s' v' := by
  induction l generalizing s v ys batchFree with
  | nil =>
    refine ⟨s, v, rfl, ?_, .refl _ _, ?_, fun _ _ _ => rfl, ?_⟩
    · rwa [append_nil]
    · simpa using hmem
    · simp [Zones.addCount]
  | cons x l ih =>
    rw [reverse_cons, ← append_assoc] at hmem
    obtain ⟨hstep, hkept, hmem'⟩ := h.step hcpu hmem
    have hone : Recounted z cpu (rest ++ l.reverse) (-1) s v
        (((s.listDel x).addCount z cpu (-1)).listAddTail x .bulk) (v.pop (.pcp z cpu) x) := by
      refine ⟨hmem', fun z' cpu' hne => ?_, rfl⟩
      refine Function.update_of_ne (fun heq => hne ?_) _ _
      cases heq
      rfl
    -- whatever the two loops decide, one of them goes on with the pages that are left
    obtain ⟨batchFree', hdetach⟩ : ∃ batchFree', detach z cpu (x :: l).length batchFree s =
        detach z cpu l.length batchFree' (((s.listDel x).addCount z cpu (-1)).listAddTail x .bulk) := by
      simp only [length_cons, detach, listLast_eq h.pools.buddy.lists (inUse_pcp hcpu) hmem]
      split_ifs
      · exact ⟨_, rfl⟩
      · exact ⟨_, rfl⟩
    obtain ⟨s', v', hrest, hdet, hkept', hre⟩ := ih batchFree' hstep hmem'
    refine ⟨s', v', hdetach.trans hrest, ?_, hkept.trans hkept', ?_⟩
    · rw [append_assoc] at hdet
      exact hdet
    · have hlen : (-((x :: l).length : Int)) = -1 + -(l.length : Int) := by
        simp only [length_cons]
        omega
      rw [hlen]
      exact hone.trans hre

/-! ## Freeing the detached pages -/

theorem freeDetached_spec (ys : List Nat) (pos : Node ζ)
    (h : Pools C cpus s v (held ∪ singles z ys)) (hwalk : Seg.Walk s.links pos (ys.map .lru) (.head .bulk))
    (hidle : ∀ y ∈ ys, Idle s y) (hfresh : ∀ y ∈ ys, (z, ⟨y, 0⟩) ∉ held) (hnodup : ys.Nodup) :
    ∃ s' v', freeDetached C z ys.length pos s = some s' ∧ Pools C cpus s' v' held ∧
      Kept held s s' ∧ s'.pcp = s.pcp ∧ ∀ z cpu, v'.mem (.pcp z cpu) = v.mem (.pcp z cpu) := by
  induction ys generalizing s v pos with
  | nil =>
    have hempty : held ∪ singles z [] = held := by
      ext p
      simp [singles]
    rw [hempty] at h
    obtain rfl : pos = .head .bulk := hwalk
    exact ⟨s, v, by simp [freeDetached], h, .refl _ _, rfl, fun _ _ => rfl⟩
  | cons y ys ih =>
    obtain ⟨rfl, hwalk⟩ := hwalk
    obtain ⟨hy, hnodup⟩ := nodup_cons.mp hnodup
    obtain ⟨s1, v1, hfree, hpools, hkept, hpcp, hmem⟩ :=
      h.free (z := z) (b := ⟨y, 0⟩) (.inr ⟨y, by simp, rfl⟩) (fun x hx => by
        rw [covers_single.mp hx]
        exact hidle y (by simp))
    have hset : (held ∪ singles z (y :: ys)) \ {(z, ⟨y, 0⟩)} = held ∪ singles z ys := by
      ext p
      simp only [singles, Set.mem_sdiff, Set.mem_union, Set.mem_ofPred_eq, mem_cons,
        Set.mem_singleton_iff]
      constructor
      · rintro ⟨hp | ⟨w, rfl | hw, rfl⟩, hne⟩
        · exact .inl hp
        · exact absurd rfl hne
        · exact .inr ⟨w, hw, rfl⟩
      · rintro (hp | ⟨w, hw, rfl⟩)
        · refine ⟨.inl hp, ?_⟩
          rintro rfl
          exact hfresh y (by simp) hp
        · refine ⟨.inr ⟨w, .inr hw, rfl⟩, fun heq => hy ?_⟩
          cases heq
          exact hw
    rw [hset] at hpools hkept
    have hsingle : ∀ w ∈ ys, (z, (⟨w, 0⟩ : Block)) ∈ held ∪ singles z ys := fun w hw =>
      .inr ⟨w, hw, rfl⟩
    obtain ⟨s', v', hrest, hpools', hkept', hpcp', hmem'⟩ := ih (s.links.next (.lru y)) hpools
      (hwalk.congr fun n hn => by
        obtain ⟨w, hw, rfl⟩ := mem_map.mp hn
        exact (hkept z _ (hsingle w hw) w (Block.covers_base _)).2)
      (fun w hw => hkept.idle (hsingle w hw) (Block.covers_base _) (hidle w (by simp [hw])))
      (fun w hw => hfresh w (by simp [hw])) hnodup
    refine ⟨s', v', ?_, hpools', (hkept.mono Set.subset_union_left).trans hkept',
      hpcp'.trans hpcp, fun z cpu => (hmem' z cpu).trans (hmem z cpu)⟩
    simp only [length_cons, freeDetached, hfree]
    exact hrest

/-- `free_pcppages_bulk` gives back the last pages of the list, as many as it is asked for. -/
theorem freePcppagesBulk_spec (h : Pools C cpus s v held) (hcpu : cpu ∈ cpus) {rest l : List Nat}
    (hmem : v.mem (.pcp z cpu) = rest ++ l.reverse) :
    ∃ s' v', freePcppagesBulk C s z cpu l.length = some s' ∧ Pools C cpus s' v' held ∧
      Kept held s s' ∧ Recounted z cpu rest (-l.length) s v s' v' := by
  obtain ⟨s1, v1, hdetach, hdet, hkept, hre⟩ := detach_spec hcpu l 1 (h.detached z) hmem
  rw [nil_append] at hdet
  obtain ⟨s', v', hfree, hpools, hkept', hpcp, hmem'⟩ := freeDetached_spec l _ hdet.pools
    hdet.linked.1.walk hdet.idle hdet.fresh ((nodup_cons.mp hdet.linked.2).2.of_map)
  refine ⟨s', v', ?_, hpools, ?_, ?_, ?_, ?_⟩
  · simp only [freePcppagesBulk, hdetach, Option.bind_eq_bind, Option.bind_some]
    exact hfree
  · have hinit : Kept held s { s with links := s.links.init (.head .bulk) } := by
      intro z' c _ x _
      have hne : (Node.lru x : Node ζ) ≠ .head .bulk := nofun
      exact ⟨rfl, (Links.init_of_ne hne).1⟩
    exact (hinit.trans hkept).trans hkept'
  · rw [hmem', hre.mem]
  · exact fun z' cpu' hne => (hmem' z' cpu').trans (hre.other z' cpu' hne)
  · rw [hpcp, hre.pcp]
    rfl

/-! ## Refilling -/

theorem Pools.addCount (h : Pools C cpus s v held) (z : ζ) (cpu : Nat) (n : Int) :
    Pools C cpus (s.addCount z cpu n) v held :=
  (h.touch (t := s.addCount z cpu n) (Set.empty_subset _) (fun _ _ => rfl)
    (fun _ _ _ => ⟨rfl, rfl⟩) rfl nofun).1

theorem rmqueueBulk_spec (h : Pools C cpus s v held) (hcpu : cpu ∈ cpus) (count : Nat) :
    ∃ s' v' xs, rmqueueBulk C z (.pcp z cpu) count s = some (s', xs.length) ∧
      Pools C cpus s' v' held ∧ Kept held s s' ∧
      Recounted z cpu (v.mem (.pcp z cpu) ++ xs) 0 s v s' v' := by
  induction count generalizing s v with
  | zero =>
    refine ⟨s, v, [], rfl, h, .refl _ _, ?_, fun _ _ _ => rfl, ?_⟩
    · rw [append_nil]
    · simp [Zones.addCount]
  | succ count ih =>
    obtain ⟨s1, page, hrm, hpage⟩ := h.rmqueue z 0
    simp only [rmqueueBulk, hrm]
    cases page with
    | none =>
      subst hpage
      refine ⟨_, v, [], rfl, h, .refl _ _, ?_, fun _ _ _ => rfl, ?_⟩
      · rw [append_nil]
      · simp [Zones.addCount]
    | some pfn =>
      obtain ⟨v1, hpools, hkept, hfresh, hidle, hpcp, hmem⟩ := hpage
      obtain ⟨hpush, hkept1⟩ := hpools.push hcpu (Set.mem_insert _ _)
        (hidle pfn (Block.covers_base _)) true
      have hheld : insert (z, (⟨pfn, 0⟩ : Block)) held \ {(z, ⟨pfn, 0⟩)} = held :=
        Set.insert_sdiff_self_of_notMem hfresh
      rw [hheld] at hpush hkept1
      simp only [if_true] at hpush hkept1
      obtain ⟨s', v', xs, hrest, hpools', hkept', hre⟩ := ih hpush
      refine ⟨s', v', pfn :: xs, ?_, hpools', (hkept.trans hkept1).trans hkept', ?_, ?_, ?_⟩
      · simp only [hrest, Option.map_some, length_cons]
      · rw [hre.mem]
        simp [View.push, hmem]
      · intro z' cpu' hne
        rw [hre.other z' cpu' hne, ← hmem z' cpu']
        refine Function.update_of_ne (fun heq => hne ?_) _ _
        cases heq
        rfl
      · rw [hre.pcp]
        exact addCount_congr (s := s) hpcp z cpu 0

end MinixRt.PageAlloc
