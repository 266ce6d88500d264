import PlanckOS.Fat32.Tree
import PlanckOS.Fat32.Raw

/-!
# Allocating, linking and releasing clusters

What the operations on chains do to the image: a new cluster is a free one that becomes the end of a
chain (`allocCluster_sat`), it is linked behind the last cluster of a chain (`Image.link`), a chain
is released cluster by cluster (`releaseChain_ok`).

`Confined img img' l l'` is the footprint of an operation that works on the chain `l` and leaves the
chain `l'`: no other allocated cluster changes, and `l'` only takes clusters from `l` and from the
free ones. Footprints compose (`Confined.trans`).
-/

set_option autoImplicit false

namespace PlanckOS.Fat32

open Lib.Fallible FatVolume List

variable {l t : List Nat} {a new c tail clu : Nat}

/-! ## Footprints -/

/-- From `img` to `img'` only the chain `l` and free clusters change, and `l'` consists of them. -/
structure Confined (img img' : Image) (l l' : List Nat) : Prop where
  frame : ∀ x, x ∉ l → img.next x ≠ 0 → img'.fat x = img.fat x ∧ img'.data x = img.data x
  grows : ∀ x ∈ l', x ∈ l ∨ img.next x = 0

section Footprint

variable {vol : FatVolume} {img img' img'' : Image} {l' l'' : List Nat} {t x : Nat}

theorem Confined.refl (img : Image) (l : List Nat) : Confined img img l l where
  frame _ _ _ := ⟨rfl, rfl⟩
  grows _ hx := .inl hx

theorem Confined.next_eq (h : Confined img img' l l') (hx : x ∉ l) (hn : img.next x ≠ 0) :
    img'.next x = img.next x := by
  rw [Image.next, Image.next, (h.frame x hx hn).1]

theorem Confined.trans (h : Confined img img' l l') (h' : Confined img' img'' l' l'') :
    Confined img img'' l l'' where
  frame := by
    intro x hx hn
    have hx' : x ∉ l' := fun hmem => (h.grows x hmem).elim hx hn
    have hn' : img'.next x ≠ 0 := by rwa [h.next_eq hx hn]
    obtain ⟨hfat, hdata⟩ := h.frame x hx hn
    obtain ⟨hfat', hdata'⟩ := h'.frame x hx' hn'
    exact ⟨hfat'.trans hfat, hdata'.trans hdata⟩
  grows := by
    intro x hx
    rcases h'.grows x hx with hmem | hfree
    · exact h.grows x hmem
    · -- a cluster outside of `l` that was in use is still in use
      by_cases hl : x ∈ l
      · exact .inl hl
      · by_cases hn : img.next x = 0
        · exact .inr hn
        · exact absurd (h.next_eq hl hn ▸ hfree) hn

/-- The final chain may be any part of what the footprint allows. -/
theorem Confined.narrow (h : Confined img img' l l') (hsub : ∀ x ∈ l'', x ∈ l') :
    Confined img img' l l'' where
  frame := h.frame
  grows x hx := h.grows x (hsub x hx)

/-- Writing data into a cluster of the chain. -/
theorem Confined.setData (hx : x ∈ l) (f : Buf) : Confined img (img.setData x f) l l where
  frame _ hy _ := ⟨rfl, img.setData_ne fun h => hy (h ▸ hx)⟩
  grows _ hy := .inl hy

/-- Changing the entry of a cluster of the chain. -/
theorem Confined.setEntry (hx : x ∈ l) (v : Nat) : Confined img (img.setEntry x v) l l where
  frame _ hy _ := ⟨img.setEntry_ne fun h => hy (h ▸ hx), rfl⟩
  grows _ hy := .inl hy

/-- The image with the cluster marked as the end of a chain. -/
def Image.mark (img : Image) (c : Nat) : Image := img.setEntry c 0x0FFFFFFF

/-- The image with a new cluster linked behind `t`. -/
def Image.link (img : Image) (t new : Nat) : Image := (img.mark new).setEntry t new

theorem Image.mark_next_self (img : Image) (c : Nat) : END_MARK ≤ (img.mark c).next c := by
  rw [Image.mark, Image.next_setEntry_self]
  decide

/-- Taking a free cluster. -/
theorem Confined.mark (hfree : img.next new = 0) (l : List Nat) :
    Confined img (img.mark new) l (l ++ [new]) where
  frame x _ hn := ⟨img.setEntry_ne fun h => hn (h ▸ hfree), rfl⟩
  grows x hx := by
    rcases mem_append.mp hx with hx | hx
    · exact .inl hx
    · exact .inr (mem_singleton.mp hx ▸ hfree)

theorem Confined.link (ht : t ∈ l) (hfree : img.next new = 0) :
    Confined img (img.link t new) l (l ++ [new]) :=
  (Confined.mark hfree l).trans (Confined.setEntry (mem_append_left _ ht) new)

/-- A free cluster, marked, is a chain of its own. -/
theorem chain_mark (hv : vol.Valid new) : (img.mark new).Chain vol new [new] :=
  .last hv (img.mark_next_self new)

/-- A cluster linked behind the end of a chain is its new end. -/
theorem chain_link (hg : Geometry vol) (hl : img.Chain vol a l) (ht : t ∈ l)
    (hend : END_MARK ≤ img.next t) (hv : vol.Valid new) (hfree : img.next new = 0) :
    (img.link t new).Chain vol a (l ++ [new]) := by
  have hlt := hg.lt_end hv
  rw [END_MARK] at hlt hend
  have hnew : new ∉ l := fun h => chain_next_ne_zero hl h hfree
  have hnt : new ≠ t := fun h => hnew (h ▸ ht)
  have hother : ∀ x ∈ l, x ≠ t → (img.link t new).next x = img.next x := by
    intro x hx hxt
    have hxn : x ≠ new := fun h => hnew (h ▸ hx)
    rw [Image.link, Image.next_setEntry_ne _ hxt, Image.mark, Image.next_setEntry_ne _ hxn]
  have hself : (img.link t new).next t = new := by
    rw [Image.link, Image.next_setEntry_self]
    omega
  refine hl.extend hg.not_stop ?_ ?_ (.last hv ?_)
  · intro x hx hstop
    apply hother x hx
    rintro rfl
    exact hstop (by rwa [END_MARK])
  · -- the only cluster of the chain with an end mark is its last one
    intro x hx hstop
    by_cases hxt : x = t
    · exact hxt ▸ hself
    · exact absurd hxt (not_not_intro (hl.last_unique hg.not_stop hx ht hstop (by rwa [END_MARK])))
  · rw [Image.link, Image.next_setEntry_ne _ hnt]
    exact img.mark_next_self new

end Footprint

/-! ## Free clusters -/

section Allocation

variable {vol : FatVolume} {d : Disk} {img : Image}

variable (hg : Geometry vol) (hs : Shows vol d img) (hv : view vol d = img)

include hg hv in
theorem findFreeFrom_disk {n : Nat} (h : c + n ≤ vol.maxCluster) :
    (∃ x, vol.findFreeFrom c n d = .ok x d ∧ c ≤ x ∧ x < c + n ∧
      img.next x = 0) ∨
    (vol.findFreeFrom c n d = .err .mkfsAborted d ∧ ∀ x, c ≤ x → x < c + n → img.next x ≠ 0) := by
  induction n generalizing c with
  | zero =>
    refine .inr ⟨rfl, ?_⟩
    intro x hx hx'
    omega
  | succ n ih =>
    rw [findFreeFrom, Op.bind_ok (readFatEntry_shows hg hv (by omega : c < vol.maxCluster))]
    by_cases hfree : img.next c = 0
    · rw [if_pos hfree]
      exact .inl ⟨c, rfl, le_rfl, by omega, hfree⟩
    · rw [if_neg hfree]
      rcases ih (by omega : c + 1 + n ≤ vol.maxCluster) with ⟨x, hx, hle, hlt, h0⟩ | ⟨hx, hnone⟩
      · exact .inl ⟨x, hx, by omega, by omega, h0⟩
      · refine .inr ⟨hx, ?_⟩
        intro x hle hlt
        by_cases hxc : x = c
        · exact hxc ▸ hfree
        · exact hnone x (by omega) (by omega)

/-- The number of free clusters among `n` from `c` on. -/
def Image.freeCount (img : Image) (c n : Nat) : Nat :=
  (range' c n).countP fun x => decide (img.next x = 0)

include hg hs in
/-- **Allocation** takes a free cluster, or fails when there is none. -/
theorem allocCluster_cases : (∃ new d', allocCluster vol d = .ok new d' ∧ vol.Valid new ∧
      img.next new = 0 ∧ Shows vol d' (img.mark new)) ∨
    (allocCluster vol d = .err .mkfsAborted d ∧ ∀ x, vol.Valid x → img.next x ≠ 0) := by
  have hroot := hg.root_valid
  have hsum : 2 + (vol.maxCluster - 2) = vol.maxCluster := by
    have := hroot.1
    have := hroot.2
    omega
  rcases findFreeFrom_disk hg hs.view_eq hsum.le with ⟨x, hx, hle, hlt, h0⟩ | ⟨hx, hnone⟩
  · have hv : vol.Valid x := ⟨hle, by omega⟩
    obtain ⟨d', hrun, hs'⟩ := writeFatEntry_shows (v := 0x0FFFFFFF) hg hs hv.2
    refine .inl ⟨x, d', ?_, hv, h0, hs'⟩
    rw [allocCluster, findFreeCluster, Op.bind_ok hx, Op.bind_ok hrun, Op.pure_run]
  · refine .inr ⟨?_, ?_⟩
    · rw [allocCluster, findFreeCluster, Op.bind_err hx]
    · intro x hv
      exact hnone x hv.1 (by have := hv.2; omega)

include hg hs in
theorem allocCluster_sat {Q : Nat → Disk → Prop} {E : FError → Disk → Prop}
    (hok : ∀ new d', vol.Valid new → img.next new = 0 → Shows vol d' (img.mark new) → Q new d')
    (herr : E .mkfsAborted d) : (allocCluster vol d).Sat Q E := by
  rcases allocCluster_cases hg hs with ⟨new, d', hrun, hv, h0, hs'⟩ | ⟨hrun, -⟩
  · exact sat_of_ok hrun (hok new d' hv h0 hs')
  · rw [hrun]
    exact herr

/-- From `img` to `img'` the clusters `t`, which were free, were put behind the chain `l`: only
their entries and the one of the last cluster of `l` changed. -/
structure Appended (vol : FatVolume) (img img' : Image) (l t : List Nat) : Prop where
  free : ∀ x ∈ t, vol.Valid x ∧ img.next x = 0
  table : ∀ x, x ∉ t → l.getLast? ≠ some x → img'.fat x = img.fat x
  data : img'.data = img.data

theorem Appended.refl (img : Image) (l : List Nat) : Appended vol img img l [] where
  free _ hx := absurd hx not_mem_nil
  table _ _ _ := rfl
  data := rfl

/-- The first cluster of a file. -/
theorem Appended.mark (hv : vol.Valid new) (hfree : img.next new = 0) :
    Appended vol img (img.mark new) [] [new] where
  free _ hx := mem_singleton.mp hx ▸ ⟨hv, hfree⟩
  table _ hx _ := img.setEntry_ne fun h => hx (h ▸ mem_cons_self)
  data := rfl

theorem Appended.link (hlast : l.getLast? = some tail)
    (hv : vol.Valid new) (hfree : img.next new = 0) :
    Appended vol img (img.link tail new) l [new] where
  free _ hx := mem_singleton.mp hx ▸ ⟨hv, hfree⟩
  table x hx hend := by
    have htail : x ≠ tail := fun h => hend (h ▸ hlast)
    have hnew : x ≠ new := fun h => hx (h ▸ mem_cons_self)
    rw [Image.link, Image.setEntry_ne _ htail, Image.mark, Image.setEntry_ne _ hnew]
  data := rfl

/-- Clusters behind those that were put there before. A cluster that is still free was so before. -/
theorem Appended.trans {img' img'' : Image} {u : List Nat} (h : Appended vol img img' l t)
    (h' : Appended vol img' img'' (l ++ t) u) (hne : t ≠ [])
    (hstill : ∀ x, vol.Valid x → img'.next x = 0 → img.next x = 0) :
    Appended vol img img'' l (t ++ u) where
  free x hx := by
    rcases mem_append.mp hx with hx | hx
    · exact h.free x hx
    · obtain ⟨hv, hfree⟩ := h'.free x hx
      exact ⟨hv, hstill x hv hfree⟩
  table x hx hend := by
    rw [mem_append, not_or] at hx
    refine (h'.table x hx.2 fun hlast => hx.1 ?_).trans (h.table x hx.1 hend)
    rw [getLast?_append_of_ne_nil _ hne] at hlast
    exact mem_of_getLast? hlast
  data := h'.data.trans h.data

theorem Appended.confined {img' : Image} (h : Appended vol img img' l t) :
    Confined img img' l (l ++ t) where
  frame x hx hn := by
    have ht : x ∉ t := fun hmem => hn (h.free x hmem).2
    exact ⟨h.table x ht fun hlast => hx (mem_of_getLast? hlast), congrFun h.data x⟩
  grows x hx := (mem_append.mp hx).imp_right fun hx => (h.free x hx).2

include hg hs in
/-- **Appending clusters** behind the end of a chain: all of them, or all that were free when there
are not enough. -/
theorem appendClusters_returns (hl : img.Chain vol a l) (hlast : l.getLast? = some tail) (n : Nat) :
    (appendClusters vol tail n d).Returns
      (fun _ d' => ∃ img' t, Shows vol d' img' ∧ img'.Chain vol a (l ++ t) ∧
        Appended vol img img' l t ∧ t.length = n)
      (fun e d' => e = .mkfsAborted ∧ ∃ img' t, Shows vol d' img' ∧ img'.Chain vol a (l ++ t) ∧
        Appended vol img img' l t ∧ t.length < n ∧
        ∀ x, vol.Valid x → img.next x = 0 → x ∈ t) := by
  induction n generalizing d img tail l with
  | zero => exact ⟨img, [], hs, (append_nil l).symm ▸ hl, .refl img l, rfl⟩
  | succ n ih =>
    have htail : tail ∈ l := mem_of_getLast? hlast
    rw [appendClusters]
    rcases allocCluster_cases hg hs with ⟨new, d₁, halloc, hv, hfree, hs₁⟩ | ⟨halloc, hnone⟩
    · obtain ⟨d₂, hrun, hs₂⟩ := writeFatEntry_shows (v := new) hg hs₁ (hl.valid_of_mem htail).2
      have hstop : END_MARK ≤ img.next tail := by
        obtain ⟨l', rfl⟩ := getLast?_eq_some_iff.mp hlast
        exact hl.stop_of_last
      have hl₂ := chain_link hg hl htail hstop hv hfree
      have happ := Appended.link hlast hv hfree
      -- a cluster that is free now is not one of the two whose entries were written
      have hsame : ∀ x, x ≠ new → x ≠ tail → (img.link tail new).next x = img.next x := by
        intro x hnew htail
        rw [Image.link, Image.next_setEntry_ne _ htail, Image.mark, Image.next_setEntry_ne _ hnew]
      have hstill : ∀ x, vol.Valid x → (img.link tail new).next x = 0 → img.next x = 0 := by
        intro x _ h0
        by_cases hmem : x ∈ l ++ [new]
        · exact absurd h0 (chain_next_ne_zero hl₂ hmem)
        · rw [mem_append, mem_singleton, not_or] at hmem
          exact hsame x hmem.2 (fun h => hmem.1 (h ▸ htail)) ▸ h0
      apply returns_bind_ok halloc
      apply returns_bind_ok hrun
      refine (ih hs₂ hl₂ getLast?_concat).mono ?_ ?_
      · rintro - d' ⟨img', t, hs', hl', happ', hlen⟩
        exact ⟨img', new :: t, hs', append_assoc l [new] t ▸ hl',
          happ.trans happ' (cons_ne_nil _ _) hstill, congrArg (· + 1) hlen⟩
      · rintro e d' ⟨he, img', t, hs', hl', happ', hlen, hall⟩
        refine ⟨he, img', new :: t, hs', append_assoc l [new] t ▸ hl',
          happ.trans happ' (cons_ne_nil _ _) hstill, Nat.succ_lt_succ hlen, ?_⟩
        intro x hx h0
        by_cases hnew : x = new
        · exact hnew ▸ mem_cons_self
        · have hxt : x ≠ tail := fun h => chain_next_ne_zero hl htail (h ▸ h0)
          exact mem_cons_of_mem _ (hall x hx ((hsame x hnew hxt).trans h0))
    · rw [Op.bind_err halloc]
      exact ⟨rfl, img, [], hs, (append_nil l).symm ▸ hl, .refl img l, Nat.succ_pos n,
        fun x hx h0 => absurd h0 (hnone x hx)⟩

/-! ## Releasing a chain -/

/-- The chain `l` is free in `img'`, and everything else is as in `img`, with the reserved bits of
the entries. -/
structure Released (img img' : Image) (l : List Nat) : Prop where
  free : ∀ x ∈ l, img'.next x = 0
  fat : ∀ x, x ∉ l → img'.fat x = img.fat x
  data : img'.data = img.data
  high : ∀ x, img'.fat x / 2 ^ 28 = img.fat x / 2 ^ 28

/-- Releasing nothing. -/
theorem Released.nil (img : Image) : Released img img [] where
  free _ hx := absurd hx not_mem_nil
  fat _ _ := rfl
  data := rfl
  high _ := rfl

theorem releaseStep_stop (h : ¬ (2 ≤ clu ∧ clu < END_MARK)) :
    releaseStep vol clu d = .ok (.done ()) d := by
  rw [releaseStep, if_neg h]
  rfl

theorem releaseChain_stop (h : ¬ (2 ≤ clu ∧ clu < END_MARK)) :
    releaseChain vol clu d = .ok () d := by
  obtain ⟨n, hbound⟩ := loopBound_succ
  rw [releaseChain, hbound]
  exact Op.loopM_done (releaseStep_stop h)

/-- The device with the table entries of the clusters cleared, one after the other. -/
def FatVolume.clearedOn (vol : FatVolume) (d : Disk) (l : List Nat) : Disk :=
  l.foldl (fun d x => vol.setEntryOn d x 0) d

include hg hs in
theorem setEntryOn_shows (hc : c < vol.maxCluster) (v : Nat) :
    Shows vol (vol.setEntryOn d c v) (img.setEntry c v) := by
  obtain ⟨d', hrun, hs'⟩ := writeFatEntry_shows (v := v) hg hs hc
  obtain ⟨-, rfl⟩ := Outcome.ok.inj (hrun.symm.trans (writeFatEntry_run vol d c v))
  exact hs'

include hg hs in
/-- What the cleared device shows. -/
theorem clearedOn_shows (hl : ∀ x ∈ l, vol.Valid x) :
    ∃ img', Shows vol (vol.clearedOn d l) img' ∧ Released img img' l := by
  induction l generalizing d img with
  | nil => exact ⟨img, hs, .nil img⟩
  | cons b rest ih =>
    rw [forall_mem_cons] at hl
    obtain ⟨img', hs', hrel⟩ := ih (setEntryOn_shows hg hs hl.1.2 0) hl.2
    refine ⟨img', hs', ?_, ?_, hrel.data, fun x => (hrel.high x).trans (img.high_setEntry b 0 x)⟩
    · intro x hx
      by_cases hrest : x ∈ rest
      · exact hrel.free x hrest
      · obtain rfl := (mem_cons.mp hx).resolve_right hrest
        rw [Image.next, hrel.fat x hrest, ← Image.next, Image.next_setEntry_self, Nat.zero_mod]
    · intro x hx
      rw [mem_cons, not_or] at hx
      rw [hrel.fat x hx.2, img.setEntry_ne hx.1]

include hg hs in
/-- **`releaseChain` clears the entries of the chain**, from its head on. -/
theorem releaseChain_run (hl : img.Chain vol clu l) :
    releaseChain vol clu d = .ok () (vol.clearedOn d l) := by
  suffices h : ∀ (l : List Nat) (n : Nat) (d : Disk) (img : Image) (clu : Nat),
      Shows vol d img → img.Chain vol clu l → l.length < n →
      Op.loopM (releaseStep vol) n clu d = .ok () (vol.clearedOn d l) from
    h l _ d img clu hs hl (chain_length_lt hg hl)
  intro l
  induction l with
  | nil => exact fun n d img clu _ hl _ => absurd rfl hl.ne_nil
  | cons b rest ih =>
    intro n d img clu hs hl hn
    obtain rfl := hl.head_eq
    have hv := hl.head_valid
    rw [length_cons] at hn
    obtain ⟨n, rfl⟩ : ∃ m, n = m + 1 := ⟨n - 1, by omega⟩
    -- one round: the head is freed, and the loop goes on at its successor
    have hstep : releaseStep vol clu d = .ok (.next (img.next clu)) (vol.setEntryOn d clu 0) := by
      rw [releaseStep, if_pos ⟨hv.1, hg.lt_end hv⟩,
        Op.bind_ok (readFatEntry_shows hg hs.view_eq hv.2), Op.bind_ok (writeFatEntry_run _ _ _ _),
        Op.pure_run]
    refine (Op.loopM_next hstep).trans ?_
    by_cases hrest : rest = []
    · subst hrest
      obtain ⟨n, rfl⟩ : ∃ m, n = m + 1 := ⟨n - 1, by rw [length_nil] at hn; omega⟩
      have hend : END_MARK ≤ img.next clu :=
        (hl.next_cases hl.head_mem).resolve_left fun h => by
          obtain h := mem_singleton.mp h
          exact hl.next_ne_self hg.not_stop h
      exact Op.loopM_done (releaseStep_stop fun h => Nat.not_lt.mpr hend h.2)
    · have hclu : clu ∉ rest := (nodup_cons.mp (hl.nodup hg.not_stop)).1
      have hl₁ : (img.setEntry clu 0).Chain vol (img.next clu) rest :=
        (hl.tail hrest).congr fun x hx => img.next_setEntry_ne fun h => hclu (h ▸ hx)
      exact ih n _ _ _ (setEntryOn_shows hg hs hv.2 0) hl₁ (by omega)

include hg hs in
/-- **`releaseChain` frees exactly the clusters of the chain.** -/
theorem releaseChain_ok (hl : img.Chain vol clu l) : ∃ d' img', releaseChain vol clu d = .ok () d' ∧
      Shows vol d' img' ∧ Released img img' l := by
  obtain ⟨img', hs', hrel⟩ := clearedOn_shows hg hs fun x hx => hl.valid_of_mem hx
  exact ⟨_, img', releaseChain_run hg hs hl, hs', hrel⟩

include hg hs in
/-- Releasing what an entry starts: nothing, or its chain. -/
theorem releaseChain_start (h : clu = 0 ∨ ∃ l, img.Chain vol clu l) : ∃ d' img' l,
      releaseChain vol clu d = .ok () d' ∧ Shows vol d' img' ∧
      Released img img' l ∧ ∀ x, x ∈ l ↔ ∃ m, img.Chain vol clu m ∧ x ∈ m := by
  rcases h with rfl | ⟨l, hl⟩
  · refine ⟨d, img, [], releaseChain_stop (by omega), hs, .nil img, ?_⟩
    intro x
    refine ⟨fun hx => absurd hx not_mem_nil, ?_⟩
    rintro ⟨m, hm, -⟩
    have := hm.head_valid.1
    omega
  · obtain ⟨d', img', hrun, hs', hrel⟩ := releaseChain_ok hg hs hl
    refine ⟨d', img', l, hrun, hs', hrel, fun x => ⟨fun hx => ⟨l, hl, hx⟩, ?_⟩⟩
    rintro ⟨m, hm, hx⟩
    exact hm.unique hg.not_stop hl ▸ hx

end Allocation

end PlanckOS.Fat32
