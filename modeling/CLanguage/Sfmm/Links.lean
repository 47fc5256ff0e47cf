import CLanguage.Sfmm.Free
import CLanguage.Lib.Ring

/-!
# Link updates on one ring

The ways in which the allocator edits the ring of blocks of one size: unlinking a
block, putting a block in front, and taking the only block. Each lemma gives the
resulting ring and the words that may have changed. `linkBehindFirst` leaves no
ring with the block in it; unlinking the block restores the ring.

The positions of a ring are its dummy head and its blocks. `Spaced` keeps the
`next` word of one position apart from the `prev` word of another.
-/

namespace CLanguage.Sfmm

open Lib

/-- The ring of free blocks whose dummy header is at `hd`. -/
abbrev BlockRing (m : Mem) (hd : ℕ) (xs : List ℕ) : Prop :=
  Ring m.linksNext m.linksPrev hd xs

/-- No position of `ps` has its `next` word where another has its `prev` word. -/
def Spaced (ps : List ℕ) : Prop := ∀ a ∈ ps, a < 2 ^ 64 ∧ ∀ b ∈ ps, a ≠ b + 8

theorem Spaced.subset {ps qs : List ℕ} (h : Spaced ps) (sub : qs ⊆ ps) : Spaced qs :=
  fun a ha => ⟨(h a (sub ha)).1, fun b hb => (h a (sub ha)).2 b (sub hb)⟩

variable {m : Mem} {hd t h x : ℕ} {xs pre post : List ℕ}

theorem after_mem_cons (hd : ℕ) (post : List ℕ) : after hd post ∈ hd :: post := by
  have hmem := after_mem hd post
  rw [List.mem_append, List.mem_singleton] at hmem
  exact List.mem_cons.mpr hmem.symm

section Words

variable (a b v : ℕ)

theorem linksNext_setLinksNext_self (hv : v < 2 ^ 64) : (m.setLinksNext a v).linksNext a = v :=
  Mem.ptr_setPtr_self m _ hv

theorem linksPrev_setLinksPrev_self (hv : v < 2 ^ 64) : (m.setLinksPrev a v).linksPrev a = v :=
  Mem.ptr_setPtr_self m _ hv

theorem linksNext_setLinksNext_of_ne (h : b ≠ a) :
    (m.setLinksNext a v).linksNext b = m.linksNext b :=
  Mem.ptr_setPtr_of_ne m _ _ v (by omega)

theorem linksPrev_setLinksPrev_of_ne (h : b ≠ a) :
    (m.setLinksPrev a v).linksPrev b = m.linksPrev b :=
  Mem.ptr_setPtr_of_ne m _ _ v (by omega)

theorem linksNext_setLinksPrev (h : b ≠ a + 8) :
    (m.setLinksPrev a v).linksNext b = m.linksNext b :=
  Mem.ptr_setPtr_of_ne m _ _ v (by omega)

theorem linksPrev_setLinksNext (h : a ≠ b + 8) :
    (m.setLinksNext a v).linksPrev b = m.linksPrev b :=
  Mem.ptr_setPtr_of_ne m _ _ v (by omega)

end Words

/-- The two words that `unlink` writes. -/
theorem Mem.unlink_eq (m : Mem) (h : ℕ) :
    m.unlink h = (m.setLinksPrev (m.linksNext h) (m.linksPrev h)).setLinksNext (m.linksPrev h)
      (if m.linksNext h + 16 = h + 8 then m.linksPrev h else m.linksNext h) := by
  have hprev : (m.setLinksPrev (m.linksNext h) (m.linksPrev h)).linksPrev h = m.linksPrev h := by
    by_cases hself : h + 16 = m.linksNext h + 16
    · simp only [Mem.setLinksPrev, Mem.linksPrev, ← hself]
      exact Mem.ptr_setPtr_self _ _ (Mem.ptr_lt _ _)
    · exact Mem.ptr_setPtr_of_ne _ _ _ _ hself
  have hnext : (m.setLinksPrev (m.linksNext h) (m.linksPrev h)).linksNext h =
      if m.linksNext h + 16 = h + 8 then m.linksPrev h else m.linksNext h := by
    split_ifs with hself
    · simp only [Mem.setLinksPrev, Mem.linksNext] at hself ⊢
      rw [hself]
      exact Mem.ptr_setPtr_self _ _ (Mem.ptr_lt _ _)
    · exact Mem.ptr_setPtr_of_ne _ _ _ _ (Ne.symm hself)
  rw [Mem.unlink, hprev, hnext]

theorem Mem.unlink_of_ne {m : Mem} {h a : ℕ} (hnext : a ≠ m.linksNext h + 16)
    (hprev : a ≠ m.linksPrev h + 8) : m.unlink h a = m a := by
  rw [Mem.unlink_eq, Mem.setPtr_of_ne _ _ _ _ hprev, Mem.setPtr_of_ne _ _ _ _ hnext]

/-- Stores to the same address keep two memories equal at a word. -/
theorem Mem.setPtr_congr {m m' : Mem} {a b p : ℕ} (h : m' b = m b) :
    m'.setPtr a p b = m.setPtr a p b := by
  by_cases hab : b = a
  · rw [hab, Mem.setPtr_self, Mem.setPtr_self]
  · rw [Mem.setPtr_of_ne _ _ _ _ hab, Mem.setPtr_of_ne _ _ _ _ hab, h]

/-- What `unlink` leaves in a word depends on that word and on the block's links. -/
theorem Mem.unlink_congr {m m' : Mem} {h a : ℕ} (h8 : m' (h + 8) = m (h + 8))
    (h16 : m' (h + 16) = m (h + 16)) (ha : m' a = m a) : m'.unlink h a = m.unlink h a := by
  have hnext : m'.linksNext h = m.linksNext h := Mem.ptr_congr h8
  have hprev : m'.linksPrev h = m.linksPrev h := Mem.ptr_congr h16
  rw [Mem.unlink_eq, Mem.unlink_eq, hnext, hprev]
  exact Mem.setPtr_congr (Mem.setPtr_congr ha)

/-- A write away from the links that `unlink` reads and writes can come first. -/
theorem Mem.modify_unlink {m : Mem} {a h : ℕ} {f : Word → Word} (hnext : a ≠ m.linksNext h + 16)
    (hprev : a ≠ m.linksPrev h + 8) (h8 : a ≠ h + 8) (h16 : a ≠ h + 16) :
    (m.unlink h).modify a f = (m.modify a f).unlink h := by
  have hn : (m.modify a f) (h + 8) = m (h + 8) := Mem.modify_of_ne _ _ _ _ (Ne.symm h8)
  have hp : (m.modify a f) (h + 16) = m (h + 16) := Mem.modify_of_ne _ _ _ _ (Ne.symm h16)
  ext1
  funext w
  by_cases hw : w = a
  · have hsame : (m.modify a f).unlink h w = m.modify a f w := by
      refine Mem.unlink_of_ne ?_ ?_
      · rw [hw, Mem.linksNext, Mem.ptr_congr hn]
        exact hnext
      · rw [hw, Mem.linksPrev, Mem.ptr_congr hp]
        exact hprev
    rw [hsame, hw, Mem.modify_self, Mem.modify_self, Mem.unlink_of_ne hnext hprev]
  · rw [Mem.modify_of_ne _ _ _ _ hw]
    exact (Mem.unlink_congr hn hp (Mem.modify_of_ne _ _ _ _ hw)).symm

/-- Unlinking a block writes only its neighbours' links. -/
theorem unlink_ring (ring : BlockRing m hd (pre ++ x :: post))
    (spaced : Spaced (hd :: (pre ++ x :: post))) :
    BlockRing (m.unlink x) hd (pre ++ post) ∧
      ∀ a, a ≠ after hd post + 16 → a ≠ before hd pre + 8 → m.unlink x a = m a := by
  have hx : x ∈ hd :: (pre ++ x :: post) := by simp
  have hz : after hd post ∈ hd :: (pre ++ x :: post) := by
    have := after_mem_cons hd post
    simp only [List.mem_cons, List.mem_append] at this ⊢
    tauto
  have hy : before hd pre ∈ hd :: (pre ++ x :: post) :=
    List.mem_append_left (x :: post) (before_mem hd pre)
  have hnodup := ring.nodup
  have hxz : x ≠ after hd post := by
    intro e
    have := e ▸ after_mem_cons hd post
    simp only [List.nodup_cons, List.mem_append, List.mem_cons, List.nodup_append] at this hnodup
    tauto
  have hnext : m.linksNext x = after hd post := ring.next_member
  have hprev : m.linksPrev x = before hd pre := ring.prev_member
  have hprev' : (m.setLinksPrev (after hd post) (before hd pre)).linksPrev x = before hd pre := by
    rw [linksPrev_setLinksPrev_of_ne _ _ _ hxz, hprev]
  have hnext' : (m.setLinksPrev (after hd post) (before hd pre)).linksNext x = after hd post := by
    rw [linksNext_setLinksPrev _ _ _ ((spaced x hx).2 _ hz), hnext]
  -- both stores go to the neighbours, since `x` itself keeps its links
  have hm : m.unlink x = (m.setLinksPrev (after hd post) (before hd pre)).setLinksNext
      (before hd pre) (after hd post) := by
    simp only [Mem.unlink, hnext, hprev, hprev', hnext']
  rw [hm]
  have sub : ∀ a ∈ hd :: (pre ++ post), a ∈ hd :: (pre ++ x :: post) := by
    intro a ha
    simp only [List.mem_cons, List.mem_append] at ha ⊢
    tauto
  refine ⟨ring.remove ?_ ?_ ?_ ?_, fun a ha ha' => ?_⟩
  · exact linksNext_setLinksNext_self _ _ (spaced _ hz).1
  · intro _
    rw [linksPrev_setLinksNext _ _ _ ((spaced _ hy).2 _ hz),
      linksPrev_setLinksPrev_self _ _ (spaced _ hy).1]
  · intro a ha hne
    rw [linksNext_setLinksNext_of_ne _ _ _ hne,
      linksNext_setLinksPrev _ _ _ ((spaced a (sub a ha)).2 _ hz)]
  · intro a ha hne
    rw [linksPrev_setLinksNext _ _ _ ((spaced _ hy).2 _ (sub a (List.mem_cons_of_mem hd ha))),
      linksPrev_setLinksPrev_of_ne _ _ _ hne]
  · rw [Mem.setPtr_of_ne _ _ _ _ ha', Mem.setPtr_of_ne _ _ _ _ ha]

/-- `linkFront` in terms of the first position behind the head. -/
theorem linkFront_eq {z : ℕ} (hz : m.linksNext (nodeHead t) = z) (hh : nodeHead t ≠ h + 8)
    (hzt : nodeHead t ≠ z + 8) :
    linkFront m t h = (((m.setLinksPrev z h).setLinksPrev h (nodeHead t)).setLinksNext h
      z).setLinksNext (nodeHead t) h := by
  simp only [linkFront, hz]
  rw [linksNext_setLinksPrev _ _ _ hh, linksNext_setLinksPrev _ _ _ hzt, hz]

/-- Putting a block in front writes its links, the head's `next` and the old
first block's `prev`. -/
theorem linkFront_ring (ring : BlockRing m (nodeHead t) xs) (fresh : h ∉ nodeHead t :: xs)
    (spaced : Spaced (nodeHead t :: h :: xs)) :
    BlockRing (linkFront m t h) (nodeHead t) (h :: xs) ∧
      ∀ a, a ≠ after (nodeHead t) xs + 16 → a ≠ h + 16 → a ≠ h + 8 → a ≠ nodeHead t + 8 →
        linkFront m t h a = m a := by
  have hz : after (nodeHead t) xs ∈ nodeHead t :: h :: xs := by
    have := after_mem_cons (nodeHead t) xs
    simp only [List.mem_cons] at this ⊢
    tauto
  have hh : h ∈ nodeHead t :: h :: xs := by simp
  have ht : nodeHead t ∈ nodeHead t :: h :: xs := by simp
  have hne : nodeHead t ≠ h := fun e => fresh (by simp [e])
  have hzh : after (nodeHead t) xs ≠ h := fun e => fresh (e ▸ after_mem_cons _ _)
  have ring' : BlockRing m (nodeHead t) ([] ++ xs) := ring
  have hfirst : m.linksNext (nodeHead t) = after (nodeHead t) xs := ring'.next_before
  have hm := linkFront_eq hfirst ((spaced _ ht).2 _ hh) ((spaced _ ht).2 _ hz)
  rw [hm]
  have sub : ∀ a ∈ nodeHead t :: xs, a ∈ nodeHead t :: h :: xs := fun a ha =>
    List.cons_subset_cons _ (List.subset_cons_self _ _) ha
  -- the four links that are set, and then those that are not
  refine ⟨Ring.insert ring' fresh ?_ ?_ ?_ ?_ ?_ ?_, fun a h1 h2 h3 h4 => ?_⟩
  · exact linksNext_setLinksNext_self _ _ (spaced h hh).1
  · rw [linksNext_setLinksNext_of_ne _ _ _ hne.symm]
    exact linksNext_setLinksNext_self _ _ (spaced _ hz).1
  · rw [linksPrev_setLinksNext _ _ _ ((spaced _ ht).2 _ hh),
      linksPrev_setLinksNext _ _ _ ((spaced _ hh).2 _ hh)]
    exact linksPrev_setLinksPrev_self _ _ (spaced _ ht).1
  · intro _
    rw [linksPrev_setLinksNext _ _ _ ((spaced _ ht).2 _ hz),
      linksPrev_setLinksNext _ _ _ ((spaced _ hh).2 _ hz),
      linksPrev_setLinksPrev_of_ne _ _ _ hzh]
    exact linksPrev_setLinksPrev_self _ _ (spaced _ hh).1
  · intro a ha hat
    rw [before_nil] at hat
    have hah : a ≠ h := fun e => fresh (e ▸ ha)
    rw [linksNext_setLinksNext_of_ne _ _ _ hat, linksNext_setLinksNext_of_ne _ _ _ hah,
      linksNext_setLinksPrev _ _ _ ((spaced a (sub a ha)).2 _ hh),
      linksNext_setLinksPrev _ _ _ ((spaced a (sub a ha)).2 _ hz)]
  · intro a ha haz
    have ha' : a ∈ nodeHead t :: xs := List.mem_cons_of_mem _ ha
    have hah : a ≠ h := fun e => fresh (e ▸ ha')
    rw [linksPrev_setLinksNext _ _ _ ((spaced _ ht).2 _ (sub a ha')),
      linksPrev_setLinksNext _ _ _ ((spaced _ hh).2 _ (sub a ha')),
      linksPrev_setLinksPrev_of_ne _ _ _ hah, linksPrev_setLinksPrev_of_ne _ _ _ haz]
  · rw [Mem.setPtr_of_ne _ _ _ _ h4, Mem.setPtr_of_ne _ _ _ _ h3, Mem.setPtr_of_ne _ _ _ _ h2,
      Mem.setPtr_of_ne _ _ _ _ h1]

/-- `linkBehindFirst` in terms of the first two positions. -/
theorem linkBehindFirst_eq {f z : ℕ} (hf : m.linksNext (nodeHead t) = f) (hz : m.linksNext f = z)
    (hne : f ≠ h) (hh : f ≠ h + 8) :
    linkBehindFirst m t h =
      ((m.setLinksNext h z).setLinksPrev h f).setLinksPrev z h := by
  simp only [linkBehindFirst, hf, hz]
  rw [linksNext_setLinksPrev _ _ _ hh, linksNext_setLinksNext_of_ne _ _ _ hne, hz]

/-- What is written does not depend on words that are not read. -/
theorem linkBehindFirst_congr {a f : ℕ} (hf : m.linksNext (nodeHead t) = f)
    (head : m' (nodeHead t + 8) = m (nodeHead t + 8)) (first : m' (f + 8) = m (f + 8))
    (ha : m' a = m a) : linkBehindFirst m' t h a = linkBehindFirst m t h a := by
  have hhead : m'.linksNext (nodeHead t) = f := (Mem.ptr_congr head).trans hf
  have hnext : m'.linksNext f = m.linksNext f := Mem.ptr_congr first
  simp only [linkBehindFirst, hhead, hf, hnext]
  have hread : ((m'.setLinksNext h (m.linksNext f)).setLinksPrev h f).linksNext f =
      ((m.setLinksNext h (m.linksNext f)).setLinksPrev h f).linksNext f :=
    Mem.ptr_congr (Mem.setPtr_congr (Mem.setPtr_congr first))
  rw [hread]
  exact Mem.setPtr_congr (Mem.setPtr_congr (Mem.setPtr_congr ha))

section Behind

variable (ring : BlockRing m (nodeHead t) xs) (fresh : h ∉ nodeHead t :: xs)
  (spaced : Spaced (nodeHead t :: h :: xs))
include ring fresh spaced

/-- The positions that a block linked behind the first one is linked to. -/
theorem linkBehindFirst_ring :
    ∃ f ∈ nodeHead t :: xs, ∃ z ∈ nodeHead t :: xs,
      linkBehindFirst m t h = ((m.setLinksNext h z).setLinksPrev h f).setLinksPrev z h ∧
      m.linksNext f = z ∧ (z ≠ nodeHead t → m.linksPrev z = f) := by
  have ring₀ : BlockRing m (nodeHead t) ([] ++ xs) := ring
  have hfirst := Ring.next_before ring₀
  have sub : ∀ a ∈ nodeHead t :: xs, a ∈ nodeHead t :: h :: xs := fun a ha =>
    List.cons_subset_cons _ (List.subset_cons_self _ _) ha
  have hh : h ∈ nodeHead t :: h :: xs := by simp
  have key : ∀ f ∈ nodeHead t :: xs, ∀ z, m.linksNext (nodeHead t) = f → m.linksNext f = z →
      linkBehindFirst m t h = ((m.setLinksNext h z).setLinksPrev h f).setLinksPrev z h :=
    fun f hf z hnext hz => linkBehindFirst_eq hnext hz (fun e => fresh (e ▸ hf))
      ((spaced f (sub f hf)).2 h hh)
  -- behind the head if the list is empty, else behind its first member
  cases xs with
  | nil => exact ⟨nodeHead t, by simp, nodeHead t, by simp, key _ (by simp) _ hfirst hfirst, hfirst,
      fun e => absurd rfl e⟩
  | cons x ys =>
    have ring' : BlockRing m (nodeHead t) ([] ++ x :: ys) := ring
    have hsecond := ring'.next_member
    refine ⟨x, by simp, after (nodeHead t) ys, ?_, key _ (by simp) _ hfirst hsecond, hsecond,
      fun hne => ?_⟩
    · have := after_mem_cons (nodeHead t) ys
      simp only [List.mem_cons] at this ⊢
      tauto
    · cases ys with
      | nil => exact absurd rfl hne
      | cons z ys =>
        have ring'' : BlockRing m (nodeHead t) ([x] ++ z :: ys) := ring
        exact ring''.prev_member

/-- Unlinking a block that has been linked behind the first one restores the links. -/
theorem unlink_linkBehindFirst {a : ℕ} (h8 : a ≠ h + 8) (h16 : a ≠ h + 16)
    (back : a ≠ nodeHead t + 16) : ((linkBehindFirst m t h).unlink h).ptr a = m.ptr a := by
  obtain ⟨f, hf, z, hz, heq, hnext, hprev⟩ := linkBehindFirst_ring ring fresh spaced
  have hh : h ∈ nodeHead t :: h :: xs := by simp
  have sub : ∀ a ∈ nodeHead t :: xs, a ∈ nodeHead t :: h :: xs := fun a ha =>
    List.cons_subset_cons _ (List.subset_cons_self _ _) ha
  have hzh : z ≠ h := fun e => fresh (e ▸ hz)
  have hzlt := (spaced z (sub z hz)).1
  have hflt := (spaced f (sub f hf)).1
  have hhz : h ≠ z + 8 := (spaced h hh).2 z (sub z hz)
  have hhh : h ≠ h + 8 := by omega
  have hfz : f ≠ z + 8 := (spaced f (sub f hf)).2 z (sub z hz)
  have hnext' : (linkBehindFirst m t h).linksNext h = z := by
    rw [heq, linksNext_setLinksPrev _ _ _ hhz, linksNext_setLinksPrev _ _ _ hhh]
    exact linksNext_setLinksNext_self _ _ hzlt
  have hprev' : (linkBehindFirst m t h).linksPrev h = f := by
    rw [heq, linksPrev_setLinksPrev_of_ne _ _ _ hzh.symm]
    exact linksPrev_setLinksPrev_self _ _ hflt
  have hlinks : z + 16 ≠ h + 8 := by omega
  rw [Mem.unlink_eq, hnext', hprev', if_neg hlinks, heq]
  -- the links to `h` get back the values that they had
  by_cases hf8 : a = f + 8
  · rw [hf8, Mem.ptr_setPtr_self _ _ hzlt]
    exact hnext.symm
  rw [Mem.ptr_setPtr_of_ne _ _ _ _ hf8]
  by_cases hz16 : a = z + 16
  · rw [hz16, Mem.ptr_setPtr_self _ _ hflt]
    exact (hprev fun e => back (by rw [hz16, e])).symm
  rw [Mem.ptr_setPtr_of_ne _ _ _ _ hz16, Mem.ptr_setPtr_of_ne _ _ _ _ hz16,
    Mem.ptr_setPtr_of_ne _ _ _ _ h16, Mem.ptr_setPtr_of_ne _ _ _ _ h8]

end Behind
/-- The only block of a new list. -/
theorem linkAlone_ring (spaced : Spaced [nodeHead t, h]) (hne : nodeHead t ≠ h) :
    BlockRing (linkAlone m t h) (nodeHead t) [h] ∧
      ∀ a, a ≠ nodeHead t + 8 → a ≠ nodeHead t + 16 → a ≠ h + 8 → a ≠ h + 16 →
        linkAlone m t h a = m a := by
  have hh : h ∈ [nodeHead t, h] := by simp
  have ht : nodeHead t ∈ [nodeHead t, h] := by simp
  refine ⟨⟨?_, ?_, by simpa using hne⟩, fun a h1 h2 h3 h4 => ?_⟩
  · have hhead : (linkAlone m t h).linksNext (nodeHead t) = h := by
      unfold linkAlone
      rw [linksNext_setLinksNext_of_ne _ _ _ hne,
        linksNext_setLinksPrev _ _ _ ((spaced _ ht).2 _ hh),
        linksNext_setLinksPrev _ _ _ ((spaced _ ht).2 _ ht)]
      exact linksNext_setLinksNext_self _ _ (spaced _ hh).1
    have hblock : (linkAlone m t h).linksNext h = nodeHead t :=
      linksNext_setLinksNext_self _ _ (spaced _ ht).1
    simpa using ⟨hhead, hblock⟩
  · have hprev : (linkAlone m t h).linksPrev h = nodeHead t := by
      unfold linkAlone
      rw [linksPrev_setLinksNext _ _ _ ((spaced _ hh).2 _ hh)]
      exact linksPrev_setLinksPrev_self _ _ (spaced _ ht).1
    simpa using hprev
  · unfold linkAlone
    rw [Mem.setPtr_of_ne _ _ _ _ h3, Mem.setPtr_of_ne _ _ _ _ h4, Mem.setPtr_of_ne _ _ _ _ h2,
      Mem.setPtr_of_ne _ _ _ _ h1]

/-- Taking the only block empties the ring. The head's `prev` keeps its old value. -/
theorem takeOnly_ring (hlt : hd < 2 ^ 64) : BlockRing (m.setLinksNext hd hd) hd [] := by
  refine ⟨?_, .singleton hd, by simp⟩
  simpa using linksNext_setLinksNext_self hd hd hlt

end CLanguage.Sfmm
