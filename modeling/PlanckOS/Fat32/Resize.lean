import PlanckOS.Fat32.ReadSafety
import PlanckOS.Fat32.Shortage

/-!
# Cutting and growing files

`f_truncate` cuts the chain behind the current cluster. When that is the cluster of the position,
the file keeps its bytes up to the position and the clusters behind are free (`truncate_cuts`).

`f_expand` grows the chain as far as there are free clusters, and touches nothing else
(`expand_grows`). It returns early when the chain has all clusters already, without changing the
size, and it computes the number of clusters in 32 bits. `expand_reaches_iff` says when the size
asked for is reached and every byte up to it can be sought and read.
-/

set_option autoImplicit false

namespace PlanckOS.Fat32

open Lib.Fallible FatVolume List

variable {vol : FatVolume} {l t l' : List Nat}

/-! ## `f_truncate` -/

section Truncate

variable {s : OpenFile Disk}

/-- **The file is cut behind its current cluster.** Its bytes in front of the position stay, the
clusters behind are free in every copy of the table, and no other entry changes. -/
theorem truncate_cuts (hg : Geometry vol) (hm : Mirrored vol s.dev)
    (hwrite : s.file.flags &&& FA_WRITE ≠ 0) (hl : (view vol s.dev).Chain vol s.file.startCluster l)
    (hcur : l[s.file.position / vol.clusterSize]? = some s.file.currentCluster) :
    ∃ s' kept freed, fTruncate (some vol) s = .ok () s' ∧ fSize s'.file = s.file.position ∧
      l = kept ++ freed ∧ kept.length = s.file.position / vol.clusterSize + 1 ∧
      kept.getLast? = some s.file.currentCluster ∧
      (view vol s'.dev).Chain vol s'.file.startCluster kept ∧
      (∀ k < vol.numFats, rawEntry vol s'.dev k s.file.currentCluster % 2 ^ 28 = 0x0FFFFFFF ∧
        (∀ x ∈ freed, rawEntry vol s'.dev k x % 2 ^ 28 = 0) ∧
        ∀ x < vol.maxCluster, x ≠ s.file.currentCluster → x ∉ freed →
          rawEntry vol s'.dev k x = rawEntry vol s.dev k x) ∧
      ∀ i < s.file.position,
        fileByte vol (view vol s'.dev) kept i = fileByte vol (view vol s.dev) l i := by
  have hs := hm.shows
  obtain ⟨hlt, hc⟩ := List.getElem?_eq_some_iff.mp hcur
  have hsplit : l = l.take (s.file.position / vol.clusterSize) ++
      s.file.currentCluster :: l.drop (s.file.position / vol.clusterSize + 1) := by
    rw [← hc, ← drop_eq_getElem_cons hlt, take_append_drop]
  have hlength : (l.take (s.file.position / vol.clusterSize)).length =
      s.file.position / vol.clusterSize := length_take_of_le hlt.le
  generalize l.take (s.file.position / vol.clusterSize) = l₁ at hsplit hlength
  generalize l.drop (s.file.position / vol.clusterSize + 1) = l₂ at hsplit
  obtain ⟨d', img', hrun, hs', hchain, hcut⟩ := fTruncate_cuts hg hs hwrite hl hsplit
  have hvalid : ∀ x ∈ l, x < vol.maxCluster := fun x hx => (hl.valid_of_mem hx).2
  refine ⟨⟨d', s.file.truncated⟩, l₁ ++ [s.file.currentCluster], l₂, hrun, rfl, ?_, ?_,
    getLast?_concat, hs'.view_eq ▸ hchain, ?_, ?_⟩
  · rw [hsplit, append_assoc]
    rfl
  · rw [length_append, length_singleton, hlength]
  · intro k hk
    refine ⟨?_, fun x hx => ?_, fun x hx hne hkept => ?_⟩
    · rw [hs'.rawEntry_eq hg hk (hvalid _ (mem_of_getElem? hcur))]
      exact hcut.last
    · have hmem : x ∈ l := hsplit ▸ mem_append_right _ (mem_cons_of_mem _ hx)
      rw [hs'.rawEntry_eq hg hk (hvalid x hmem)]
      exact hcut.freed x hx
    · rw [hs'.rawEntry_eq hg hk hx, hs.rawEntry_eq hg hk hx, hcut.table x hne hkept]
  · -- the cluster of a byte in front of the position is one of those that are kept
    intro i hi
    have hidx : i / vol.clusterSize < (l₁ ++ [s.file.currentCluster]).length := by
      rw [length_append, length_singleton, hlength]
      exact Nat.lt_succ_of_le (Nat.div_le_div_right hi.le)
    have hkeep : l = (l₁ ++ [s.file.currentCluster]) ++ l₂ := by
      rw [hsplit, append_assoc]
      rfl
    rw [fileByte, fileByte, hs'.view_eq, hcut.data, hkeep, getD_append _ _ _ _ hidx]

end Truncate

/-- The handle on the file of three clusters, at byte 600. -/
def movedFile : File :=
  { longFile with position := 600, currentCluster := 4, sectorInCluster := 0, byteInSector := 88 }

/-- Cutting it at byte 600 frees the cluster 5. -/
theorem truncate_cuts_long : ∃ s', (fTruncate (some tinyVol) : FileOp Disk Unit)
      ⟨longDisk, movedFile⟩ = .ok () s' ∧ fSize s'.file = 600 ∧
    (view tinyVol s'.dev).Chain tinyVol 3 [3, 4] ∧ rawEntry tinyVol s'.dev 0 5 % 2 ^ 28 = 0 := by
  have hcur : [3, 4, 5][movedFile.position / tinyVol.clusterSize]? =
      some movedFile.currentCluster := by decide
  obtain ⟨s', kept, freed, hrun, hsize, hsplit, hlen, -, hchain, htable, -⟩ :=
    truncate_cuts (s := ⟨longDisk, movedFile⟩) tiny_geometry (tiny_mirrored _) (by decide)
      long_chain hcur
  have hlen : kept.length = 2 := hlen
  have hsplit : [3, 4] ++ [5] = kept ++ freed := hsplit
  obtain ⟨rfl, rfl⟩ := append_inj hsplit hlen.symm
  have hstart : s'.file.startCluster = 3 := hchain.head_eq
  exact ⟨s', hrun, hsize, hstart ▸ hchain, (htable 0 (by decide)).2.1 5 mem_cons_self⟩

/-! ## The chain after `f_expand` -/

/-- From `s` to `s'` the clusters `new`, all different and free before, were put behind the chain
`l` of the handle. Only their table entries and the one of the last cluster of `l` changed, and no
byte of a cluster. -/
structure GrownBy (vol : FatVolume) (s : OpenFile Disk) (l new : List Nat) (s' : OpenFile Disk) :
    Prop where
  chain : (s'.file.startCluster = 0 ∧ l ++ new = []) ∨
    (view vol s'.dev).Chain vol s'.file.startCluster (l ++ new)
  distinct : new.Nodup
  free : ∀ x ∈ new, vol.Valid x ∧ (view vol s.dev).next x = 0
  table : ∀ k < vol.numFats, ∀ x < vol.maxCluster, x ∉ new → l.getLast? ≠ some x →
    rawEntry vol s'.dev k x = rawEntry vol s.dev k x
  data : ∀ x, vol.Valid x → ∀ o < vol.clusterSize, clusterByte vol s'.dev x o =
    clusterByte vol s.dev x o

section Expand

variable {s s' : OpenFile Disk} {size : Nat} {img' img : Image}
  {f' f : File}

theorem Appended.grownBy (hg : Geometry vol) (hm : Mirrored vol s.dev)
    (hs' : Shows vol s'.dev img') (hgrew : Grew vol (view vol s.dev) l s.file img' (l ++ t) f')
    (happ : Appended vol (view vol s.dev) img' l t)
    (hstart : s'.file.startCluster = f'.startCluster) : GrownBy vol s l t s' where
  chain := .inr (hs'.view_eq ▸ hstart ▸ hgrew.chain)
  distinct := (hgrew.chain.nodup hg.not_stop).of_append_right
  free := happ.free
  table k hk x hx hnew hlast := by
    rw [hs'.rawEntry_eq hg hk hx, hm.shows.rawEntry_eq hg hk hx, happ.table x hnew hlast]
  data x hx o ho := by
    rw [← view_data hx ho, ← view_data hx ho, hs'.view_eq, happ.data]

/-- **`f_expand` puts free clusters behind the chain**: the `k` clusters that are missing when there
are as many, and otherwise all that are free, with an error. -/
theorem expand_grows (hg : Geometry vol) (hm : Mirrored vol s.dev)
    (hchain : (s.file.startCluster = 0 ∧ l = []) ∨ (view vol s.dev).Chain vol s.file.startCluster l)
    (hwrite : s.file.flags &&& FA_WRITE ≠ 0) (hlarger : fSize s.file < size)
    (hsum : size + vol.clusterSize ≤ 2 ^ 32) (hmore : l.length < clustersFor vol size) :
    (clustersFor vol size - l.length ≤ (view vol s.dev).freeCount 2 (vol.maxCluster - 2) →
      ∃ s' new, fExpand (some vol) size s = .ok () s' ∧
        GrownBy vol s l new s' ∧ new.length = clustersFor vol size - l.length) ∧
    ((view vol s.dev).freeCount 2 (vol.maxCluster - 2) < clustersFor vol size - l.length →
      ∃ e s' new, fExpand (some vol) size s = .err e s' ∧
        GrownBy vol s l new s' ∧ ∀ x, vol.Valid x → (view vol s.dev).next x = 0 → x ∈ new) := by
  have hcs := hg.clusterSize_bounds
  have hneed : neededClusters vol size = clustersFor vol size :=
    neededClusters_eq (Nat.zero_lt_of_lt hlarger) hsum (by omega)
  have hlarger : ¬ size ≤ s.file.size := Nat.not_le.mpr hlarger
  have hspec := fExpand_returns hg hm.shows hchain hwrite size
  rw [hneed] at hspec
  cases hrun : fExpand (some vol) size s with
  | ok r s' =>
    rw [hrun] at hspec
    rcases hspec with ⟨-, hwhy⟩ | ⟨-, -, img', t, f', hs', hgrew, happ, hlen, hfile⟩
    · omega
    · have hgrown := happ.grownBy hg hm hs' hgrew (by rw [hfile])
      refine ⟨fun _ => ⟨s', t, rfl, hgrown, hlen⟩, fun hfew => ?_⟩
      -- the clusters that were taken had been free
      have henough := length_le_freeCount hgrown.distinct hgrown.free
      omega
  | err e s' =>
    rw [hrun] at hspec
    obtain ⟨-, -, -, ⟨rfl, rfl, hzero, hnone⟩ |
        ⟨img', t, f', hs', hgrew, happ, hfile, hlen, hall⟩⟩ :=
      hspec
    · -- no cluster at all was free
      have hcount := freeCount_le_length (t := []) fun x hx h0 => absurd h0 (hnone x hx)
      rw [length_nil] at hcount hmore
      refine ⟨fun henough => ?_,
        fun _ => ⟨e, _, [], rfl, ?_, fun x hx h0 => absurd h0 (hnone x hx)⟩⟩
      · rw [length_nil] at henough
        omega
      · exact ⟨.inl ⟨hzero, rfl⟩, nodup_nil, forall_mem_nil _, fun _ _ _ _ _ _ => rfl,
          fun _ _ _ _ => rfl⟩
    · have hcount := freeCount_le_length hall
      refine ⟨fun henough => ?_, fun _ => ⟨e, s', t, rfl, ?_, hall⟩⟩
      · omega
      · exact happ.grownBy hg hm hs' hgrew (by rw [hfile])
  | fault w =>
    rw [hrun] at hspec
    exact hspec.elim

/-! ## The size after `f_expand` -/

/-- The file has the size, its chain has the clusters for it, and the handle can be moved to every
byte in front of it and read from there without leaving the chain. -/
def Reaches (vol : FatVolume) (s : OpenFile Disk) (size : Nat) : Prop :=
  size ≤ fSize s.file ∧ ∃ l, ((s.file.startCluster = 0 ∧ l = []) ∨
      (view vol s.dev).Chain vol s.file.startCluster l) ∧ clustersFor vol size ≤ l.length ∧
    ∀ offset < size, ∃ t, fLseek (some vol) offset s = .ok () t ∧
      fTell t.file = offset ∧ (∃ q, Cursor vol l t.file offset q) ∧
      (s.file.flags &&& FA_READ ≠ 0 → ∀ len, (∃ t', fRead (some vol) len t =
          .ok (fileBytes vol (view vol s.dev) l offset (min len (fSize s.file - offset))) t') ∧
        ∀ c, ReadsCluster vol t len c → c ∈ l)

/-- The cursor is at the position; in a file without a cluster, where it will be in the first one.
-/
def Placed (vol : FatVolume) (l : List Nat) (f : File) : Prop :=
  (l = [] ∧ f.position = f.sectorInCluster * 512 + f.byteInSector) ∨
    ∃ q, Cursor vol l f f.position q

/-- Two lists of clusters of a handle. -/
theorem chain_start_unique {a : Nat} (hg : Geometry vol)
    (h : (a = 0 ∧ l = []) ∨ img.Chain vol a l) (h' : (a = 0 ∧ l' = []) ∨ img.Chain vol a l') :
    l = l' := by
  rcases h with ⟨h0, rfl⟩ | hl
  · rcases h' with ⟨-, rfl⟩ | hl'
    · rfl
    · have := hl'.head_valid.1
      omega
  · rcases h' with ⟨h0, rfl⟩ | hl'
    · have := hl.head_valid.1
      omega
    · exact hl.unique hg.not_stop hl'

/-- A file whose chain holds its bytes, with the cursor at the position if that is in front of
`size`. -/
theorem OnChain.reaches (hg : Geometry vol) (h : OnChain vol (view vol s.dev) s.file l)
    (hsize : size ≤ s.file.size)
    (hcur : s.file.position < size → ∃ q, Cursor vol l s.file s.file.position q) :
    Reaches vol s size := by
  have hcovers := h.covers
  refine ⟨hsize, l, h.chain, (clustersFor_le_iff hg).mpr (by omega), fun offset hoff => ?_⟩
  have hl : (view vol s.dev).Chain vol s.file.startCluster l := by
    refine h.chain.resolve_left fun hnone => ?_
    rw [hnone.2, length_nil] at hcovers
    omega
  have hallowed : ¬ SeekDenied s.file offset := by omega
  obtain ⟨t, hrun, hdev, hpos, hsame, hcursor⟩ : ∃ t,
      fLseek (some vol) offset s = .ok () t ∧ t.dev = s.dev ∧
        t.file.position = offset ∧ SameText s.file t.file ∧ ∃ q, Cursor vol l t.file offset q := by
    by_cases heq : offset = s.file.position
    · exact ⟨s, fLseek_same hallowed heq, rfl, heq.symm, .refl _, heq ▸ hcur (heq ▸ hoff)⟩
    · exact fLseek_inside hg rfl hl hallowed heq (by omega)
  have hseat : Seated vol (view vol s.dev) t.file l := by
    refine ⟨hsame.start.symm ▸ hl, ?_, ?_, ?_, .inl (hpos.symm ▸ hcursor)⟩
    · rw [hsame.size]
      exact hcovers
    · rw [hsame.size]
      omega
    · rw [hsame.size]
      exact h.small
  have hview : view vol t.dev = view vol s.dev := by rw [hdev]
  refine ⟨t, hrun, hpos, hcursor, fun hread len => ⟨?_, fun c hc => ?_⟩⟩
  · obtain ⟨bytes, t', hbytes, -, -, -, -, rfl⟩ :=
      (fRead_seated hg hview hseat (hsame.flags.symm ▸ hread) len).ok
    rw [hpos, hsame.size] at hbytes
    exact ⟨t', hbytes⟩
  · obtain ⟨-, m, hm, hmem⟩ := InPlace.reads_own hg hview (.inr ⟨l, hseat⟩) hc
    rw [hsame.start] at hm
    exact hm.unique hg.not_stop hl ▸ hmem

/-- A handle that is moved to its own position stays where it is. -/
theorem Reaches.cursor (hg : Geometry vol) (h : Reaches vol s size)
    (hchain : (s.file.startCluster = 0 ∧ l = []) ∨
      (view vol s.dev).Chain vol s.file.startCluster l) : clustersFor vol size ≤ l.length ∧
      (s.file.position < size → ∃ q, Cursor vol l s.file s.file.position q) := by
  obtain ⟨hsize, l', hchain', hlen, hseek⟩ := h
  obtain rfl := chain_start_unique hg hchain hchain'
  refine ⟨hlen, fun hpos => ?_⟩
  obtain ⟨t, hrun, -, hcur, -⟩ := hseek _ hpos
  have hle : size ≤ s.file.size := hsize
  have hstay : fLseek (some vol) s.file.position s = .ok () s :=
    fLseek_same (by omega) rfl
  obtain ⟨-, rfl⟩ := Outcome.ok.inj (hstay.symm.trans hrun)
  exact hcur

theorem Grew.place (h : Grew vol img l f img' l' f') : f'.position = f.position ∧
      f'.sectorInCluster = f.sectorInCluster ∧ f'.byteInSector = f.byteInSector := by
  rcases h.file with rfl | ⟨-, hfile⟩
  · exact ⟨rfl, rfl, rfl⟩
  · rw [hfile]
    exact ⟨rfl, rfl, rfl⟩

/-- The cursor is at the position in the new chain exactly when it was placed in the old one. -/
theorem Grew.cursor_iff (hg : Geometry vol) (hh : Handle vol img f l)
    (hgrew : Grew vol img l f img' (l ++ t) f') (happ : Appended vol img img' l t) :
    (∃ q, Cursor vol (l ++ t) f' f'.position q) ↔ Placed vol l f := by
  have hnodup := hgrew.chain.nodup hg.not_stop
  rcases hh.chain with ⟨hzero, rfl⟩ | hl
  · -- the handle got its first cluster
    have hcurrent : f'.currentCluster = f'.startCluster := by
      rcases hgrew.file with rfl | ⟨-, hfile⟩
      · have := hgrew.chain.head_valid.1
        omega
      · exact congrArg File.currentCluster hfile
    have hhead : ([] ++ t)[0]? = some f'.startCluster := hgrew.chain.getElem?_zero
    obtain ⟨hposition, hsector, hbyte⟩ := hgrew.place
    constructor
    · rintro ⟨q, hq⟩
      obtain ⟨hlt, -⟩ := List.getElem?_eq_some_iff.mp hq.cluster
      have hq0 : q = 0 := by
        rw [← getElem?_inj hlt hnodup, hq.cluster, hhead, hcurrent]
      have hplace := hq.place
      rw [hq0, hposition, hsector, hbyte] at hplace
      exact .inl ⟨rfl, by omega⟩
    · rintro (⟨-, hplace⟩ | ⟨q, hq⟩)
      · refine ⟨0, hcurrent ▸ hhead, ?_, ?_, ?_⟩
        · rw [hposition, hsector, hbyte]
          omega
        · rw [hsector]
          exact hh.sector
        · rw [hbyte]
          exact hh.byte
      · exact absurd hq.mem not_mem_nil
  · have hne : f.startCluster ≠ 0 := by
      have := hl.head_valid.1
      omega
    obtain rfl : f' = f := hgrew.file.resolve_right fun h => hne h.1
    constructor
    · rintro ⟨q, hq⟩
      refine .inr ⟨q, ?_, hq.place, hq.sector, hq.byte⟩
      -- the current cluster is one of the old chain, which the new ones are not
      have hold : f'.currentCluster ∈ l := by
        refine hh.current.resolve_left fun h0 => ?_
        have := (hgrew.chain.valid_of_mem hq.mem).1
        omega
      have hlt : q < l.length := by
        by_contra hge
        have hnew := hq.cluster
        rw [getElem?_append_right (Nat.not_lt.mp hge)] at hnew
        exact chain_next_ne_zero hl hold (happ.free _ (mem_of_getElem? hnew)).2
      rw [← hq.cluster, getElem?_append_left hlt]
    · rintro (⟨rfl, -⟩ | ⟨q, hq⟩)
      · exact absurd rfl hl.ne_nil
      · exact ⟨q, hq.grow (prefix_append l t)⟩

/-- **When `f_expand` reaches the size.** It does when the file is that large already, and otherwise
exactly when the sum with the cluster size fits in 32 bits and the chain is too short; and when the
cursor, if it stands in front of the size, is placed. -/
theorem expand_reaches_iff (hg : Geometry vol) (hm : Mirrored vol s.dev)
    (hh : Handle vol (view vol s.dev) s.file l)
    (hcovers : s.file.size ≤ l.length * vol.clusterSize) (hold : s.file.size < 2 ^ 32)
    (hwrite : s.file.flags &&& FA_WRITE ≠ 0) (hnew : size < 2 ^ 32)
    (hrun : fExpand (some vol) size s = .ok () s') : Reaches vol s' size ↔ (size ≤ fSize s.file ∨
        (size + vol.clusterSize ≤ 2 ^ 32 ∧ l.length < clustersFor vol size)) ∧
      (s.file.position < size → Placed vol l s.file) := by
  have hcs := hg.clusterSize_bounds
  show _ ↔ (size ≤ s.file.size ∨ _) ∧ _
  rcases (fExpand_returns hg hm.shows hh.chain hwrite size).sat.of_ok hrun with
    ⟨rfl, hwhy⟩ | ⟨hlarger, hmore, img', t, f', hs', hgrew, happ, hlen, hfile⟩
  · -- nothing was done
    constructor
    · intro h
      have hsize : size ≤ s'.file.size := h.1
      exact ⟨.inl hsize, fun hpos => .inr ((h.cursor hg hh.chain).2 hpos)⟩
    · rintro ⟨hcond, hplaced⟩
      have hsize : size ≤ s'.file.size := by
        rcases hcond with hsize | ⟨hsum, hshort⟩
        · exact hsize
        · by_contra hlarger
          have hneed : neededClusters vol size = clustersFor vol size :=
            neededClusters_eq (by omega) hsum (by omega)
          omega
      refine OnChain.reaches hg ⟨hh.chain, hcovers, hold⟩ hsize fun hpos => ?_
      refine (hplaced hpos).resolve_left fun hnone => ?_
      rw [hnone.1, length_nil] at hcovers
      omega
  · obtain ⟨d', f⟩ := s'
    obtain rfl : f = { f' with size := size, modified := true } := hfile
    have hview : view vol d' = img' := hs'.view_eq
    have hchain : (view vol d').Chain vol f'.startCluster (l ++ t) := hview ▸ hgrew.chain
    have hlength : (l ++ t).length = neededClusters vol size := by
      rw [length_append]
      omega
    have hposition := hgrew.place.1
    have hcursor := hgrew.cursor_iff hg hh happ
    have hcongr :
        ∀ q, Cursor vol (l ++ t) { f' with size := size, modified := true } f'.position q ↔
        Cursor vol (l ++ t) f' f'.position q :=
      fun q => ⟨fun h => ⟨h.cluster, h.place, h.sector, h.byte⟩,
        fun h => ⟨h.cluster, h.place, h.sector, h.byte⟩⟩
    constructor
    · -- a size that is reached is covered by the chain, which a wrapped sum does not do
      intro h
      obtain ⟨hclusters, hat⟩ := h.cursor hg (.inr hchain)
      rw [hlength] at hclusters
      have hsum : size + vol.clusterSize ≤ 2 ^ 32 := by
        by_contra hwrap
        rw [neededClusters_wraps hg hnew hwrap] at hclusters
        have hsmall := (clustersFor_le_iff hg).mp hclusters
        omega
      refine ⟨.inr ⟨hsum, ?_⟩, fun hpos => hcursor.mp ?_⟩
      · rwa [neededClusters_eq (by omega) hsum (by omega)] at hmore
      · obtain ⟨q, hq⟩ := hat (hposition.symm ▸ hpos)
        exact ⟨q, (hcongr q).mp hq⟩
    · rintro ⟨hcond, hplaced⟩
      obtain ⟨hsum, -⟩ := hcond.resolve_left (by omega)
      have hcov : size ≤ (l ++ t).length * vol.clusterSize := by
        rw [hlength]
        exact neededClusters_covers hg (by omega) hnew (.inl hsum)
      refine OnChain.reaches hg ⟨.inr hchain, hcov, hnew⟩ le_rfl fun hpos => ?_
      obtain ⟨q, hq⟩ := hcursor.mpr (hplaced (hposition ▸ hpos))
      exact ⟨q, (hcongr q).mpr hq⟩

end Expand

/-! ## Files that are grown -/

/-- The handle on the file in a slot of a sample volume, as `f_open` returns it. -/
def handleOn (d : Disk) (p : Slot) : File :=
  oldFile (FA_READ ||| FA_WRITE) p ((view tinyVol d).slot p)

/-- The file `AB` without a cluster gets two; the file `G` of a volume with one free cluster gets
that one and an error. -/
theorem expand_grows_AB : (∃ s' new, (fExpand (some tinyVol) 1000 : FileOp Disk Unit)
        ⟨secondDisk, handleOn secondDisk (2, 0)⟩ = .ok () s' ∧
      GrownBy tinyVol ⟨secondDisk, handleOn secondDisk (2, 0)⟩ [] new s' ∧ new.length = 2) ∧
    ∃ e s' new, (fExpand (some tinyVol) 2000 : FileOp Disk Unit)
        ⟨crowdedDisk, handleOn crowdedDisk (2, 0)⟩ = .err e s' ∧
      GrownBy tinyVol ⟨crowdedDisk, handleOn crowdedDisk (2, 0)⟩ [4] new s' ∧ 3 ∈ new := by
  have hchain : crowdedImage.Chain tinyVol (handleOn crowdedDisk (2, 0)).startCluster [4] := by
    decide +kernel
  have hAB := (expand_grows (s := ⟨secondDisk, handleOn secondDisk (2, 0)⟩) tiny_geometry
    (tiny_mirrored _) (.inl ⟨by decide +kernel, rfl⟩) (by decide)
    (by decide +kernel : fSize (handleOn secondDisk (2, 0)) < 1000) (by decide) (by decide)).1
    (by decide +kernel)
  have hG := (expand_grows (s := ⟨crowdedDisk, handleOn crowdedDisk (2, 0)⟩) tiny_geometry
    (tiny_mirrored _) (.inr hchain) (by decide)
    (by decide +kernel : fSize (handleOn crowdedDisk (2, 0)) < 2000) (by decide) (by decide)).2
    (by decide +kernel)
  obtain ⟨s', new, hrun, hgrown, hlen⟩ := hAB
  obtain ⟨e, t', taken, hfail, hgrown', hall⟩ := hG
  exact ⟨⟨s', new, hrun, hgrown, hlen⟩, e, t', taken, hfail, hgrown',
    hall 3 (by decide) (by decide +kernel)⟩

/-- The file of one full cluster reaches 1000 bytes. -/
theorem expand_reaches_iff_full : ∃ s', (fExpand (some tinyVol) 1000 : FileOp Disk Unit)
      ⟨fullDisk, fullFile⟩ = .ok () s' ∧ Reaches tinyVol s' 1000 := by
  obtain ⟨s', hrun⟩ : ∃ s', fExpand (some tinyVol) 1000 ⟨fullDisk, fullFile⟩ = .ok () s' := by
    decide +kernel
  have hh : Handle tinyVol fullImage fullFile [3] :=
    ⟨⟨full_onChain.chain, .inr full_cursor.mem, full_cursor.sector⟩, full_cursor.byte⟩
  refine ⟨s', hrun, ?_⟩
  refine (expand_reaches_iff (s := ⟨fullDisk, fullFile⟩) tiny_geometry (tiny_mirrored _) hh
    full_onChain.covers full_onChain.small (by decide) (by norm_num) hrun).mpr
      ⟨.inr ?_, fun _ => ?_⟩
  · decide
  · exact .inr ⟨0, full_cursor⟩

/-- **`f_expand` returns `Ok` without reaching the size.** The file `G` of one byte in one cluster
keeps its size when 100 bytes are asked for, or `2 ^ 32 - 1`, where the sum wraps. The file `AB`
without a cluster gets the size `2 ^ 32 - 1` and one cluster. On the full file, read to its end, the
handle has no cluster: after `f_expand` a seek to its position does nothing, and `f_read` reads
cluster 0. -/
theorem expand_stops_short : WellFormed tinyVol secondImage ∧ WellFormed tinyVol fullImage ∧
    (∀ o ∈ [([0x2F, 0x44, 0x2F, 0x47], (4, 2)), ([0x2F, 0x41, 0x42], (2, 0))],
      fOpen (some tinyVol) o.1 (FA_READ ||| FA_WRITE) secondDisk =
        .ok (handleOn secondDisk o.2) secondDisk) ∧
    fOpen (some tinyVol) [0x2F, 0x46] (FA_READ ||| FA_WRITE) fullDisk =
      .ok fullFile fullDisk ∧
    (∀ size ∈ [100, 2 ^ 32 - 1], ∃ s', (fExpand (some tinyVol) size : FileOp Disk Unit)
        ⟨secondDisk, handleOn secondDisk (4, 2)⟩ = .ok () s' ∧ fSize s'.file = 1 ∧
      ¬ Reaches tinyVol s' size) ∧
    (∃ s', (fExpand (some tinyVol) (2 ^ 32 - 1) : FileOp Disk Unit)
        ⟨secondDisk, handleOn secondDisk (2, 0)⟩ = .ok () s' ∧ fSize s'.file = 2 ^ 32 - 1 ∧
      (view tinyVol s'.dev).Chain tinyVol s'.file.startCluster [6] ∧
      ¬ Reaches tinyVol s' (2 ^ 32 - 1)) ∧
    ∃ bytes s₁ s₂, fRead (some tinyVol) 512 ⟨fullDisk, fullFile⟩ = .ok bytes s₁ ∧
      fExpand (some tinyVol) 1024 s₁ = .ok () s₂ ∧
      fLseek (some tinyVol) 512 s₂ = .ok () s₂ ∧
      ReadsCluster tinyVol s₂ 1 0 ∧ ¬ Reaches tinyVol s₂ 1024 := by
  refine ⟨second_wellFormed, full_wellFormed, ?_, full_open, ?_, ?_, ?_⟩
  · intro o ho
    refine fOpen_unchanged (by decide) (by decide) ?_
    revert o
    decide +kernel
  · have hrun : ∀ size ∈ [100, 2 ^ 32 - 1], ∃ s', (fExpand (some tinyVol) size : FileOp Disk Unit)
        ⟨secondDisk, handleOn secondDisk (4, 2)⟩ = .ok () s' ∧ fSize s'.file = 1 := by
      decide +kernel
    intro size hmem
    obtain ⟨s', hrun, hsize⟩ := hrun size hmem
    refine ⟨s', hrun, hsize, fun h => ?_⟩
    have hle : size ≤ 1 := hsize ▸ h.1
    have hlarge : ∀ size ∈ [100, 2 ^ 32 - 1], ¬ size ≤ 1 := by decide
    exact hlarge size hmem hle
  · obtain ⟨s', hrun, hsize, hstart, hend⟩ : ∃ s',
        (fExpand (some tinyVol) (2 ^ 32 - 1) : FileOp Disk Unit)
          ⟨secondDisk, handleOn secondDisk (2, 0)⟩ = .ok () s' ∧ fSize s'.file = 2 ^ 32 - 1 ∧
        s'.file.startCluster = 6 ∧ END_MARK ≤ (view tinyVol s'.dev).next 6 := by decide +kernel
    have hchain : (view tinyVol s'.dev).Chain tinyVol s'.file.startCluster [6] := by
      rw [hstart]
      exact .last (by decide) hend
    refine ⟨s', hrun, hsize, hchain, fun h => ?_⟩
    exact absurd (h.cursor tiny_geometry (.inr hchain)).1 (by decide)
  · obtain ⟨bytes, s₁, hread, s₂, hexpand, hposition, hsize, hcurrent, hflags⟩ : ∃ bytes s₁,
        fRead (some tinyVol) 512 ⟨fullDisk, fullFile⟩ = .ok bytes s₁ ∧ ∃ s₂,
        fExpand (some tinyVol) 1024 s₁ = .ok () s₂ ∧ s₂.file.position = 512 ∧
        s₂.file.size = 1024 ∧ s₂.file.currentCluster = 0 ∧ s₂.file.flags &&& FA_READ ≠ 0 := by
      decide +kernel
    have hseek : fLseek (some tinyVol) 512 s₂ = .ok () s₂ :=
      fLseek_same (fun h => absurd h.1 (by rw [hsize]; norm_num)) hposition.symm
    have htoRead : s₂.file.toRead 1 = 1 := by
      rw [File.toRead, hsize, hposition]
      decide
    refine ⟨bytes, s₁, s₂, hread, hexpand, hseek,
      ⟨hflags, [], s₂, .start, by rw [htoRead]; exact Nat.one_pos, hcurrent⟩, ?_⟩
    -- a cursor on the chain would be on a valid cluster, but the handle has cluster 0
    rintro ⟨-, l, hchain, -, hall⟩
    obtain ⟨t, hrun, -, ⟨q, hq⟩, -⟩ := hall 512 (by norm_num)
    obtain ⟨-, rfl⟩ := Outcome.ok.inj (hseek.symm.trans hrun)
    have hmem := hq.mem
    rcases hchain with ⟨-, rfl⟩ | hl
    · exact absurd hmem not_mem_nil
    · have hvalid := (hl.valid_of_mem hmem).1
      rw [hcurrent] at hvalid
      exact absurd hvalid (by decide)

end PlanckOS.Fat32
