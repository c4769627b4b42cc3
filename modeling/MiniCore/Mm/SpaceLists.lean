import MiniCore.Lib.Links
import MiniCore.Mm.AddressSpace

/-!
# MiniCore.Mm.SpaceLists

The lists of an address space in memory (`src/kernel/list.h`,
`src/mm/address_space.c`): a heap of `struct list_node`s in disjoint rings is a
family of sequences, and `address_space_move`, which empties two rings node by
node, is `addressSpaceMove` of these sequences.
-/

namespace MiniCore

open Lib Links Function

variable {ν : Type} [DecidableEq ν]

/-! ## Draining -/

/-- The loop `while (!list_empty(source)) { entry = source->next; list_remove(entry);
list_push_back(destination, entry); }`; none if it is not over after `fuel` tests. -/
def drain (source destination : ν) : Nat → Links ν → Option (Links ν)
  | 0, _ => none
  | fuel + 1, h =>
    if h.isEmpty source then some h
    else
      let entry := h.next source
      let h := h.remove entry
      drain source destination fuel (h.pushBack destination entry)

variable {h : Links ν} {seq : ν → Option (List ν)} {source destination : ν} {k l : List ν}

/-- **The loop ends** after as many rounds as there are nodes, and moves them in
order. -/
theorem drain_spec (hp : h.Partitioned seq) (hs : seq source = some l)
    (hd : seq destination = some k) (hne : source ≠ destination) :
    ∃ h', (∀ fuel, l.length < fuel → drain source destination fuel h = some h') ∧
      h'.Partitioned (handOver seq destination source (k ++ l)) ∧
      ∀ x, x ∉ source :: l → x ∉ destination :: k → h.SameAt h' x := by
  induction l generalizing h seq k with
  | nil =>
    have hempty := (hp.ring hs).isEmpty_iff.mpr rfl
    have hsame : handOver seq destination source (k ++ []) = seq := by
      rw [handOver, List.append_nil, ← hd, update_eq_self, ← hs, update_eq_self]
    refine ⟨h, fun fuel hf => ?_, hsame.symm ▸ hp, fun x _ _ => ⟨rfl, rfl⟩⟩
    obtain ⟨fuel, rfl⟩ := Nat.exists_eq_succ_of_ne_zero (Nat.ne_of_gt hf)
    simp [drain, hempty]
  | cons y l ih =>
    have hr := hp.ring hs
    have hnd := hr.nodup
    have hnone := hp.seq_of_mem hs List.mem_cons_self
    have hnot : h.isEmpty source ≠ true := by simp [hr.isEmpty_iff]
    -- one round: `y` leaves the source and goes behind the destination
    have h1 := hp.remove (l := []) hs
    have hd1 : handOver seq source y ([] ++ l) destination = some k := by grind [handOver_apply]
    have h2 := h1.pushBack hd1 (h1.detached (update_self ..)) (by grind)
    obtain ⟨h', hrun, hp', hframe⟩ :=
      ih (k := k ++ [y]) h2 (by grind [appended_apply, handOver_apply])
      (update_self ..)
    refine ⟨h', fun fuel hf => ?_, ?_, fun x hx hx' => ?_⟩
    · obtain ⟨fuel, rfl⟩ := Nat.exists_eq_succ_of_ne_zero (Nat.ne_of_gt (Nat.zero_lt_of_lt hf))
      rw [drain, if_neg hnot, show h.next source = y from hr.next_head]
      exact hrun fuel (by simpa using hf)
    · convert hp' using 1
      funext x
      simp only [appended_apply, handOver_apply, List.append_assoc, List.singleton_append]
      grind
    · have hx1 := hr.remove_frame (l := []) (x := x) (by simpa using hx)
      have hx2 := (h1.ring hd1).pushBack_frame hx' (show x ≠ y by grind)
      exact (hx1.trans hx2).trans (hframe x (by grind) (by grind))

/-! ## Moving an address space -/

/-- `struct address_space`: its numbers, and the nodes that are its list heads. -/
structure SpaceRecord (ν : Type) where
  root : Nat
  brkBase : Nat
  brkEnd : Nat
  pages : ν
  areas : ν

/-- The assignments `address_space_move` makes to the destination's numbers. -/
def SpaceRecord.assign (destination source : SpaceRecord ν) : SpaceRecord ν :=
  { destination with root := source.root, brkBase := source.brkBase, brkEnd := source.brkEnd }

/-- `address_space_move` on the lists in memory, each loop with `fuel` tests. -/
def moveLists (fuel : Nat) (destination source : SpaceRecord ν) (h : Links ν) :
    Option (SpaceRecord ν × SpaceRecord ν × Links ν) := do
  let destination := destination.assign source
  let source := { source with root := 0 }
  let h := h.init destination.pages
  let h ← drain source.pages destination.pages fuel h
  let h := h.init destination.areas
  let h ← drain source.areas destination.areas fuel h
  return (destination, source, h)

/-- The record stands for an address space; `page` and `area` are the objects
around a node. -/
structure SpaceRecord.Holds (page : ν → UserPage) (area : ν → VmArea) (seq : ν → Option (List ν))
    (r : SpaceRecord ν) (as : AddressSpace) : Prop where
  root : r.root = as.root
  brkBase : r.brkBase = as.brkBase
  brkEnd : r.brkEnd = as.brkEnd
  pages : ∃ l, seq r.pages = some l ∧ l.map page = as.pages
  areas : ∃ l, seq r.areas = some l ∧ l.map area = as.areas

/-- The four heads are four nodes, and those of the destination are no entries. -/
structure Movable (seq : ν → Option (List ν)) (dst src : SpaceRecord ν) : Prop where
  heads : [dst.pages, dst.areas, src.pages, src.areas].Nodup
  pages : ∀ a k, seq a = some k → dst.pages ∉ k
  areas : ∀ a k, seq a = some k → dst.areas ∉ k

/-- The heads after the move. -/
def moved (seq : ν → Option (List ν)) (dst src : SpaceRecord ν) (ps qs : List ν) :
    ν → Option (List ν) :=
  handOver (handOver seq dst.pages src.pages ps) dst.areas src.areas qs

/-- What `address_space_move` comes to. -/
structure Moves (h h' : Links ν) (seq : ν → Option (List ν)) (dst src : SpaceRecord ν)
    (ps qs : List ν) : Prop where
  ends : ∀ fuel, max ps.length qs.length < fuel →
    moveLists fuel dst src h = some (dst.assign src, { src with root := 0 }, h')
  partitioned : h'.Partitioned (moved seq dst src ps qs)
  frame : ∀ x, x ∉ src.pages :: ps → x ∉ src.areas :: qs → x ≠ dst.pages → x ≠ dst.areas →
    h.SameAt h' x

variable {dst src : SpaceRecord ν} {ps qs : List ν}

theorem moves (hp : h.Partitioned seq) (hm : Movable seq dst src) (hps : seq src.pages = some ps)
    (hqs : seq src.areas = some qs) : ∃ h', Moves h h' seq dst src ps qs := by
  have hheads := hm.heads
  have h1 := hp.init hm.pages
  have hps1 : update seq dst.pages (some []) src.pages = some ps := by grind [update_apply]
  obtain ⟨h2, hrun2, hp2, hframe2⟩ := drain_spec h1 hps1 (update_self ..) (by grind)
  rw [List.nil_append, handOver, update_idem, ← handOver] at hp2
  have hareas : ∀ a k, handOver seq dst.pages src.pages ps a = some k → dst.areas ∉ k := by
    intro a k hk
    have h1 := hm.areas a k
    have h2 := hm.areas _ _ hps
    grind [handOver_apply]
  have h3 := hp2.init hareas
  have hqs3 : update (handOver seq dst.pages src.pages ps) dst.areas (some []) src.areas =
      some qs := by
    grind [handOver_apply, update_apply]
  obtain ⟨h4, hrun4, hp4, hframe4⟩ := drain_spec h3 hqs3 (update_self ..) (by grind)
  rw [List.nil_append, handOver, update_idem, ← handOver] at hp4
  refine ⟨h4, fun fuel hf => ?_, hp4, fun x hxp hxa hdp hda => ?_⟩
  · have hlt := Nat.max_lt.mp hf
    simp [moveLists, SpaceRecord.assign, hrun2 fuel hlt.1, hrun4 fuel hlt.2]
  have hx2 := (init_frame hdp).trans (hframe2 x hxp (by simpa using hdp))
  have hx4 := (init_frame hda).trans (hframe4 x hxa (by simpa using hda))
  exact hx2.trans hx4

/-- The sequences went over in order, the source is left empty and all other
rings are as they were: the move of the lists is the move of the sequences. -/
structure Transferred (seq seq' : ν → Option (List ν)) (dst src : SpaceRecord ν) (ps qs : List ν) :
    Prop where
  pages : seq' dst.pages = some ps
  areas : seq' dst.areas = some qs
  sourcePages : seq' src.pages = some []
  sourceAreas : seq' src.areas = some []
  others : ∀ a ∉ [dst.pages, dst.areas, src.pages, src.areas], seq' a = seq a
  refines : ∀ {page area as}, src.Holds page area seq as →
    (dst.assign src).Holds page area seq' (addressSpaceMove as).1 ∧
    SpaceRecord.Holds page area seq' { src with root := 0 } (addressSpaceMove as).2

theorem moved_apply (x : ν) : moved seq dst src ps qs x =
    if x = src.areas then some [] else if x = dst.areas then some qs
    else if x = src.pages then some [] else if x = dst.pages then some ps else seq x := by
  simp [moved, handOver_apply]

theorem Movable.transferred (hm : Movable seq dst src) (hps : seq src.pages = some ps)
    (hqs : seq src.areas = some qs) : Transferred seq (moved seq dst src ps qs) dst src ps qs := by
  have hheads := hm.heads
  have hdp : moved seq dst src ps qs dst.pages = some ps := by grind [moved_apply]
  have hda : moved seq dst src ps qs dst.areas = some qs := by grind [moved_apply]
  have hsp : moved seq dst src ps qs src.pages = some [] := by grind [moved_apply]
  have hsa : moved seq dst src ps qs src.areas = some [] := by grind [moved_apply]
  refine ⟨hdp, hda, hsp, hsa, fun a ha => ?_, fun {page area as} hholds => ?_⟩
  · grind [moved_apply]
  obtain ⟨l, hl, hpages⟩ := hholds.pages
  obtain ⟨k, hk, hareas⟩ := hholds.areas
  obtain rfl := Option.some.inj (hps.symm.trans hl)
  obtain rfl := Option.some.inj (hqs.symm.trans hk)
  constructor
  · exact ⟨hholds.root, hholds.brkBase, hholds.brkEnd, ⟨_, hdp, hpages⟩, _, hda, hareas⟩
  · exact ⟨rfl, hholds.brkBase, hholds.brkEnd, ⟨_, hsp, rfl⟩, _, hsa, rfl⟩

/-! ## Lists and sequences -/

/-- `h'` is `h` with other rings: `node` is on one of them, and only nodes of
`touched` have other links. -/
structure Rewired (h h' : Links ν) (seq seq' : ν → Option (List ν)) (node : ν) (touched : List ν) :
    Prop where
  partitioned : h'.Partitioned seq'
  nodes : nodesOf seq' = insert node (nodesOf seq)
  frame : ∀ x, x ∉ touched → h.SameAt h' x

theorem rewired_pushBack (hp : h.Partitioned seq) {head node : ν} (hl : seq head = some l)
    (hn : Detached seq node) (hne : node ≠ head) :
    Rewired h (h.pushBack head node) seq (appended seq head node l) node (node :: head :: l) := by
  refine ⟨hp.pushBack hl hn hne, ?_, fun x hx => ?_⟩
  · ext x
    simp only [nodesOf, Set.mem_ofPred_eq, Set.mem_insert_iff, appended_apply]
    constructor
    · rintro ⟨a, k, hk, hx⟩
      grind
    rintro (rfl | ⟨a, k, hk, hx⟩)
    · exact ⟨head, l ++ [x], by simp, by simp⟩
    have := hn a k hk
    by_cases ha : a = head ∨ a = node
    · exact ⟨head, l ++ [node], by simp, by grind⟩
    · exact ⟨a, k, by grind, hx⟩
  · exact (hp.ring hl).pushBack_frame (List.not_mem_of_not_mem_cons hx) (List.ne_of_not_mem_cons hx)

theorem rewired_remove (hp : h.Partitioned seq) {head node : ν} {m : List ν}
    (hl : seq head = some (l ++ node :: m)) :
    Rewired h (h.remove node) seq (handOver seq head node (l ++ m)) node
      (head :: (l ++ node :: m)) := by
  have hnone := hp.seq_of_mem hl (List.mem_append_right l List.mem_cons_self)
  refine ⟨hp.remove hl, ?_, fun x hx => (hp.ring hl).remove_frame hx⟩
  ext x
  simp only [nodesOf, Set.mem_ofPred_eq, Set.mem_insert_iff, handOver_apply]
  constructor
  · rintro ⟨a, k, hk, hx⟩
    grind
  rintro (rfl | ⟨a, k, hk, hx⟩)
  · exact ⟨x, [], by simp, by simp⟩
  by_cases hxn : x = node
  · exact ⟨node, [], by simp, by simp [hxn]⟩
  · by_cases ha : a = head
    · exact ⟨head, l ++ m, by grind, by grind⟩
    · exact ⟨a, k, by grind, hx⟩

/-- `prev` and `next` undo each other on the nodes of the rings. -/
def Inverse (h : Links ν) (seq : ν → Option (List ν)) : Prop :=
  ∀ x ∈ nodesOf seq, h.next (h.prev x) = x ∧ h.prev (h.next x) = x

/-- The intrusive lists of a heap are sequences. -/
structure ListLaw (h : Links ν) (seq : ν → Option (List ν)) : Prop where
  inverse : Inverse h seq
  pushBack : ∀ head l node, seq head = some l → Detached seq node → node ≠ head →
    Rewired h (h.pushBack head node) seq (appended seq head node l) node (node :: head :: l) ∧
    Inverse (h.pushBack head node) (appended seq head node l)
  remove : ∀ head l node m, seq head = some (l ++ node :: m) →
    Rewired h (h.remove node) seq (handOver seq head node (l ++ m)) node
      (head :: (l ++ node :: m)) ∧
    Inverse (h.remove node) (handOver seq head node (l ++ m)) ∧
    (h.remove node).remove node = h.remove node
  removeAlone : ∀ node, seq node = some [] → h.remove node = h
  move : ∀ dst src ps qs, Movable seq dst src → seq src.pages = some ps → seq src.areas = some qs →
    ∃ h', Moves h h' seq dst src ps qs ∧ Inverse h' (moved seq dst src ps qs) ∧
      Transferred seq (moved seq dst src ps qs) dst src ps qs

/-- **Intrusive lists refine sequences**, and `address_space_move` moves them. -/
theorem lists_refine_sequences (hp : h.Partitioned seq) : ListLaw h seq where
  inverse x hx := hp.inverse hx
  pushBack head l node hl hn hne := by
    have hr := rewired_pushBack hp hl hn hne
    exact ⟨hr, fun x hx => hr.partitioned.inverse hx⟩
  remove head l node m hl := by
    have hr := rewired_remove hp hl
    have halone := (hr.partitioned.ring (update_self ..)).remove_self
    exact ⟨hr, fun x hx => hr.partitioned.inverse hx, halone⟩
  removeAlone node hn := (hp.ring hn).remove_self
  move dst src ps qs hm hps hqs := by
    obtain ⟨h', hmoves⟩ := moves hp hm hps hqs
    exact ⟨h', hmoves, fun x hx => hmoves.partitioned.inverse hx, hm.transferred hps hqs⟩

/-- The nodes of a heap where every node is alone. -/
def alone : Links Nat := ⟨id, id⟩

theorem alone_partitioned : alone.Partitioned fun _ => some [] where
  ring hl := by
    cases hl
    exact ⟨by simp, by simp [Links.Path, Links.Linked, alone]⟩
  disjoint hk hl ha hb := by
    cases hk
    cases hl
    exact (List.mem_singleton.mp ha).symm.trans (List.mem_singleton.mp hb)

/-- Two nodes pushed on head 0, which an address space at heads 10 and 11 then takes. -/
theorem lists_refine_sequences_two : ∃ seq, ListLaw ((alone.pushBack 0 2).pushBack 0 3) seq ∧
    seq 0 = some [2, 3] ∧ seq 1 = some [] ∧ Movable seq ⟨0, 0, 0, 10, 11⟩ ⟨7, 8, 9, 0, 1⟩ := by
  have hn : Detached (fun _ : Nat => some []) 2 := alone_partitioned.detached rfl
  have h1 := alone_partitioned.pushBack (l := []) rfl hn (by decide : 2 ≠ 0)
  have h2 := h1.pushBack (update_self ..) (h1.detached rfl) (by decide : 3 ≠ 0)
  refine ⟨_, lists_refine_sequences h2, rfl, rfl, by decide, ?_, ?_⟩ <;>
    · intro a k hk
      grind [appended_apply]

end MiniCore
