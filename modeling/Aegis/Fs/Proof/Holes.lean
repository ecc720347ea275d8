import Aegis.Fs.Holes
import Aegis.Fs.Proof.FileWrite

/-!
# Holes

The bytes of the buffer behind the end of the file are those that `kalloc` has left there
(`HoleInv.slack`): a write behind the end makes some of them bytes of the file. So the holes of a
file are zero exactly if every such write is into a buffer of more than a page.
-/

namespace Aegis

namespace FileData

variable {d : FileData} {need : Nat}

theorem grownCap_page_iff (h : d.Fits) (hn : need < 2 ^ 63) (hlt : d.cap < need) :
    4096 < d.grownCap need ↔ 4096 < need ∨ 4096 < d.cap := by
  have haligned := h.aligned
  obtain ⟨hle, -, -⟩ := grownCap_spec h hn
  constructor
  · intro hg
    by_contra hno
    rw [not_or, not_lt, not_lt] at hno
    have hcap : d.cap = 0 := by omega
    have hpage : d.grownCap need ≤ 4096 := by
      rw [grownCap, hcap, if_neg (by simp), pageAlignUp_of_le (by omega)]
      omega
    omega
  · omega

end FileData

namespace HoleSys

variable {s : HoleSys} {f : Nat} {bytes : List UInt8}
variable {off : Nat} {s' : HoleSys} {d : FileData}

/-- The bytes past the end are still those of `kalloc`. -/
structure HoleInv (s : HoleSys) : Prop where
  fits : s.data.Fits
  covered : ∀ i, s.covered i = true → i < s.data.size
  slack : s.data.cap ≠ 0 → ∀ i, s.data.size ≤ i → s.data.data i = kallocFill s.data.cap i

/-- `s'` has the write of `bytes` at `off`, in the buffer of `d`. -/
structure Stored (s s' : HoleSys) (off : Nat) (bytes : List UInt8) (d : FileData) : Prop where
  fits : d.Fits
  size : d.size = s.data.size
  upper : off + bytes.length ≤ d.cap
  old : ∀ i < s.data.size, d.data i = s.data.data i
  slack : d.cap ≠ 0 → ∀ i, s.data.size ≤ i → d.data i = kallocFill d.cap i
  page : 4096 < d.cap ↔ 4096 < off + bytes.length ∨ 4096 < s.data.cap
  data : s'.data = d.store off bytes
  covered : ∀ i, s'.covered i = (s.covered i || (off ≤ i && i < off + bytes.length))

theorem write_cases (heap : Bool) (h : s.HoleInv) (hn : s.off f + bytes.length < 2 ^ 63) :
    ¬ s.Succeeds f bytes.length heap ∧ s.write f bytes heap = s ∨
    s.Succeeds f bytes.length heap ∧ ∃ d, s.Stored (s.write f bytes heap) (s.off f) bytes d := by
  have hu : u64 (s.off f + bytes.length) = s.off f + bytes.length := u64_of_lt (by omega)
  have hnc : s.ncap f bytes.length = s.data.grownCap (s.off f + bytes.length) := by rw [ncap, hu]
  unfold write Succeeds
  rw [hnc]
  simp only
  obtain ⟨st, hst, he, hwhy⟩ | ⟨hd, d, hg, he⟩ := s.toFileState.write_cases f bytes
    (kalloc (s.data.grownCap (s.off f + bytes.length)) heap)
    (kallocFill (s.data.grownCap (s.off f + bytes.length)))
  · refine .inl ⟨fun hc => ?_, by simp [he, hst]⟩
    rcases hwhy with hd | hg
    · exact hc.1 hd
    · rw [hu] at hg
      rcases hc.2 with hle | hk
      · rw [FileData.grow_of_le hle] at hg
        cases hg
      · simp only [hk, FileData.grow, if_true] at hg
        split at hg <;> cases hg
  · rw [hu] at hg
    rw [he]
    rcases lt_or_ge s.data.cap (s.off f + bytes.length) with hlt | hge
    · rw [FileData.grow_of_lt hlt] at hg
      split_ifs at hg with hk
      cases hg
      obtain ⟨hle, hmod, hcap⟩ := FileData.grownCap_spec h.fits hn
      have hsize := h.fits.size_le
      exact .inr ⟨⟨hd, .inr hk⟩,
        s.data.moveTo (s.data.grownCap (s.off f + bytes.length)) (kallocFill _),
        ⟨show s.data.size ≤ s.data.grownCap _ by omega, hmod, hcap, h.fits.size_lt⟩, rfl, hle,
        fun i hi => if_pos hi, fun _ i hi => if_neg (not_lt.2 hi),
        FileData.grownCap_page_iff h.fits hn hlt, rfl, fun _ => by simp⟩
    · rw [FileData.grow_of_le hge] at hg
      cases hg
      exact .inr ⟨⟨hd, .inl hge⟩, s.data, h.fits, rfl, hge, fun _ _ => rfl, h.slack, by omega, rfl,
        fun _ => by simp⟩

theorem Stored.inv (h : s.HoleInv) (hs : s.Stored s' off bytes d)
    (hn : off + bytes.length < 2 ^ 63) : s'.HoleInv := by
  have hlen : s'.data.size = max s.data.size (off + bytes.length) := by
    rw [hs.data, FileData.store_size hn, hs.size]
  have hsize := hs.size ▸ hs.fits.size_le
  have hlt := hs.size ▸ hs.fits.size_lt
  have hcap : s'.data.cap = d.cap := by rw [hs.data]; rfl
  have hend := hs.upper
  refine ⟨⟨by omega, hcap ▸ hs.fits.aligned, hcap ▸ hs.fits.cap_lt, by omega⟩, fun i hi => ?_,
    fun hne i hi => ?_⟩
  · simp only [hs.covered, Bool.or_eq_true, Bool.and_eq_true, decide_eq_true_eq] at hi
    rcases hi with hi | hi
    · exact (h.covered i hi).trans_le (by omega)
    · omega
  · rw [hcap] at hne ⊢
    rw [hs.data, FileData.store_rest d (by omega)]
    exact hs.slack hne i (by omega)

theorem Stored.zeroed_iff (h : s.HoleInv) (hz : s.Zeroed) (hs : s.Stored s' off bytes d)
    (hn : off + bytes.length < 2 ^ 63) : s'.Zeroed ↔ (s.data.size < off → 4096 < d.cap) := by
  have hlen : s'.data.size = max s.data.size (off + bytes.length) := by
    rw [hs.data, FileData.store_size hn, hs.size]
  have hend := hs.upper
  have hrest : ∀ i, s.data.size ≤ i → i < off → s'.data.data i = kallocFill d.cap i := by
    intro i hi hlt
    rw [hs.data, FileData.store_rest d (.inl hlt)]
    exact hs.slack (by omega) i hi
  constructor
  · intro hz' hlt
    have hc : s.covered s.data.size = false := by
      by_contra hc
      exact absurd (h.covered _ (by simpa using hc)) (lt_irrefl _)
    have h0 := hz' s.data.size (by omega) (by simp [hs.covered, hc, hlt])
    rw [hrest _ le_rfl hlt] at h0
    by_contra hle
    rw [kallocFill, if_pos (not_lt.1 hle)] at h0
    cases h0
  · intro hbig i hi hc
    simp only [hs.covered, Bool.or_eq_false_iff, Bool.and_eq_false_iff, decide_eq_false_iff_not,
      not_le, not_lt] at hc
    rcases lt_or_ge i s.data.size with hold | hnew
    · rw [hs.data, FileData.store_rest d hc.2, hs.old i hold]
      exact hz i hold hc.1
    · have hlt : i < off := by omega
      rw [hrest i hnew hlt, kallocFill, if_neg (not_le.2 (hbig (by omega)))]

theorem write_zeroed (heap : Bool) (h : s.HoleInv) (hz : s.Zeroed)
    (hn : s.off f + bytes.length < 2 ^ 63) :
    ((s.write f bytes heap).Zeroed ↔ HoleOk s (.write f bytes heap)) ∧
      (s.write f bytes heap).HoleInv := by
  rcases write_cases heap h hn with ⟨hno, he⟩ | ⟨hyes, d, hs⟩
  · rw [he]
    exact ⟨iff_of_true hz fun hc => absurd hc hno, h⟩
  · refine ⟨(hs.zeroed_iff h hz hn).trans ?_, hs.inv h hn⟩
    rw [hs.page]
    exact ⟨fun hbig _ => hbig, fun hok => hok hyes⟩

end HoleSys

/-- **Holes** of a file are zero in all states of a run exactly if no write behind the end of the
file is into a buffer of a page or less. -/
theorem holes_zero_iff (access : Nat → Access) {ops : List HoleOp}
    (he : Run.Legal holeStep HoleEnv (.init access) ops) :
    Run.Always holeStep HoleSys.Zeroed (.init access) ops ↔
      Run.Legal holeStep HoleOk (.init access) ops := by
  refine Run.always_iff_legal (I := HoleSys.HoleInv) (fun s a h hz henv => ?_)
    ⟨⟨le_rfl, rfl, Nat.two_pow_pos 64, Nat.two_pow_pos 63⟩, fun _ hi => (by cases hi),
      fun hne => absurd rfl hne⟩ (fun i hi => absurd hi (Nat.not_lt_zero i)) he
  cases a with
  | seek f off => exact ⟨_, rfl, iff_of_true hz trivial, fun _ => ⟨h.fits, h.covered, h.slack⟩⟩
  | write f bytes heap =>
    obtain ⟨hiff, hinv⟩ := HoleSys.write_zeroed heap h hz henv
    exact ⟨_, rfl, hiff, fun _ => hinv⟩

/-- A byte at 5000 in an empty file. -/
theorem holes_zero_iff_pages : Run.Always holeStep HoleSys.Zeroed (.init fun _ => fileWriteData)
    [.seek 0 5000, .write 0 [1] true] := (holes_zero_iff _ (by decide +kernel)).2 (by decide +kernel)

/-- A byte at 5 in an empty file: the five bytes in front of it are poison. -/
theorem holes_read_poison : ∃ s, Run.run holeStep (.init fun _ => fileWriteData)
    [.seek 0 5, .write 0 [1] true] = some s ∧ s.data.size = 6 ∧ ¬ s.Zeroed ∧
    s.data.vfsRead ⟨0, fileReadData⟩ 6 =
      (.success, [poisonUninit, poisonUninit, poisonUninit, poisonUninit, poisonUninit, 1], 6) := by
  refine ⟨_, rfl, by decide +kernel, fun hz => ?_, by decide +kernel⟩
  exact absurd (hz 0 (by decide +kernel) (by decide +kernel)) (by decide +kernel)

end Aegis
