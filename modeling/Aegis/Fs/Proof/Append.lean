import Aegis.Fs.Proof.FileWrite

/-!
# Appending from several threads

Every piece of an appending `vfs_write` leaves the contents as they are or puts its block behind
them (`step_appends`), and what the pieces have not stored is on its way. So when nothing is on its
way any more, the blocks of the run stand behind the old contents, in the order of the copies.
-/

namespace Aegis

open Function

variable {s s' : WriteSys} {t f : Nat} {bytes : List UInt8} {heap : Bool} {junk : Nat → UInt8}

theorem FileData.contents_store (d : FileData) (h : d.size + bytes.length < 2 ^ 64) :
    (d.store d.size bytes).contents = d.contents ++ bytes := by
  have hsize : (d.store d.size bytes).size = d.size + bytes.length := by
    show (if u64 (d.size + bytes.length) > d.size then _ else _) = _
    rw [u64_of_lt h]
    split_ifs <;> omega
  unfold contents
  refine List.ext_getElem (by simp [load_length, hsize]) fun i hi _ => ?_
  rw [load_getElem, Nat.zero_add]
  rw [load_length, hsize] at hi
  rcases lt_or_ge i d.size with hlt | hge
  · rw [store_rest d (.inl hlt), List.getElem_append_left (by rwa [load_length]), load_getElem,
      Nat.zero_add]
  · rw [List.getElem_append_right (by rwa [load_length])]
    simp only [load_length]
    show (if d.size ≤ i then (bytes[i - d.size]?).getD (d.data i) else d.data i) = _
    rw [if_pos hge, List.getElem?_eq_getElem (by omega)]
    rfl

theorem FileData.contents_moveTo (d : FileData) (ncap : Nat) (junk : Nat → UInt8) :
    (d.moveTo ncap junk).contents = d.contents :=
  List.map_congr_left fun i hi => by
    have hi : i < d.size := List.mem_range.1 hi
    exact if_pos (by rwa [Nat.zero_add])

namespace WriteSys

variable {p : PendingWrite} {l : List (Nat × List UInt8)}

/-- Every File object appends. -/
def Appending (s : WriteSys) : Prop := ∀ f, (s.file f).access &&& fileAppendData ≠ 0

theorem Appending.off_eq (h : s.Appending) (f : Nat) : s.off f = s.data.size := if_pos (h f)

theorem Appending.setOffset (h : s.Appending) (f off : Nat) :
    Appending { s with toFileState := s.setOffset f off } := by
  intro g
  by_cases hg : g = f
  · rw [hg]
    simpa [FileState.setOffset] using h f
  · simpa [FileState.setOffset, update_of_ne hg] using h g

theorem store_appends (f : Nat) (bytes : List UInt8) (h : s.Appending)
    (hlt : s.data.size + bytes.length < 2 ^ 64) :
    (s.store f bytes).data.contents = s.data.contents ++ bytes ∧ (s.store f bytes).Appending := by
  refine ⟨?_, h.setOffset f _⟩
  show (s.data.store (s.off f) bytes).contents = _
  rw [h.off_eq]
  exact FileData.contents_store s.data hlt

/-- The blocks on their way, with their threads. -/
structure OnWay (s : WriteSys) (l : List (Nat × List UInt8)) : Prop where
  nodup : (l.map (·.1)).Nodup
  mem : ∀ t b, (t, b) ∈ l ↔ ∃ p, s.pend t = some p ∧ p.bytes = b

theorem OnWay.put (h : s.OnWay l) (ht : s.pend t = none)
    (hp : s'.pend = update s.pend t (some p)) : s'.OnWay ((t, p.bytes) :: l) := by
  have hnot : ∀ b, (t, b) ∉ l := fun b hb => by
    obtain ⟨q, hq, -⟩ := (h.mem t b).1 hb
    rw [ht] at hq
    cases hq
  refine ⟨List.nodup_cons.2 ⟨fun hin => ?_, h.nodup⟩, fun u b => ?_⟩
  · obtain ⟨⟨u, b⟩, hb, rfl⟩ := List.mem_map.1 hin
    exact hnot b hb
  · rw [hp, List.mem_cons, Prod.mk.injEq]
    by_cases hu : u = t
    · subst hu
      simp [hnot, eq_comm]
    · simp [hu, h.mem]

theorem OnWay.take (h : s.OnWay l) (ht : s.pend t = some p) (hp : s'.pend = update s.pend t none) :
    l.Perm ((t, p.bytes) :: l.erase (t, p.bytes)) ∧ s'.OnWay (l.erase (t, p.bytes)) := by
  have hin : (t, p.bytes) ∈ l := (h.mem _ _).2 ⟨p, ht, rfl⟩
  refine ⟨List.perm_cons_erase hin, h.nodup.sublist (List.erase_sublist.map _), fun u b => ?_⟩
  rw [(List.Nodup.of_map _ h.nodup).mem_erase_iff, h.mem, hp]
  by_cases hu : u = t
  · subst hu
    simp only [ht, Option.some.injEq, update_self]
    constructor
    · rintro ⟨hne, q, rfl, rfl⟩
      exact absurd rfl hne
    · rintro ⟨q, hq, -⟩
      cases hq
  · simp [hu]

theorem step_appends {a : WriteOp} (h : s.Sound) (ha : s.Appending) (hw : s.OnWay l)
    (hok : WriteOk s a) (hs : writeStep s a = some s') :
    ∃ l1 l', s'.data.contents = s.data.contents ++ l1.flatten ∧ s'.Appending ∧ s'.OnWay l' ∧
      (l1 ++ l'.map (·.2)).Perm (l.map (·.2) ++ s.block a) := by
  have hlt := h.lt
  cases a with
  | seek f off =>
    cases hs
    exact ⟨[], l, by simp [FileState.setOffset], ha.setOffset f _, ⟨hw.nodup, hw.mem⟩,
      by simp [block]⟩
  | enter t f bytes heap junk =>
    rw [writeStep] at hs
    split at hs
    · next ht =>
      cases hs
      obtain ⟨-, he⟩ | ⟨hd, hn, he⟩ | ⟨-, -, -, he⟩ | ⟨-, -, -, he⟩ :=
        enter_cases s t f bytes heap junk <;> simp only [block, he]
      · exact ⟨[], l, by simp, ha, hw, by simp⟩
      · have hend := hok hd hn
        rw [ha.off_eq] at hend
        obtain ⟨hc, ha'⟩ := store_appends f bytes ha hend
        exact ⟨[bytes], l, by simp [hc], ha', ⟨hw.nodup, hw.mem⟩,
          by simpa using (List.perm_append_singleton bytes (l.map (·.2))).symm⟩
      · exact ⟨[], l, by simp, ha, hw, by simp⟩
      · exact ⟨[], (t, bytes) :: l, by simp, ha, hw.put ht (p := s.request f bytes junk) rfl,
          by simpa using (List.perm_append_singleton bytes (l.map (·.2))).symm⟩
    · cases hs
  | relock t =>
    obtain ⟨p, hp, rfl⟩ := Option.map_eq_some_iff.1 hs
    have hncap := h.pend t p hp
    have hend := hok p hp
    rw [ha.off_eq] at hend
    -- the contents are the same in the buffer that the call has brought
    have hc : (s.relock t p).data.contents = s.data.contents ++ p.bytes ∧
        (s.relock t p).Appending ∧ (s.relock t p).pend = update s.pend t none := by
      rcases lt_or_ge s.data.cap (u64 (s.off p.file + p.bytes.length)) with hn | hn
      · rw [relock_of_lt hn]
        obtain ⟨hc, ha'⟩ := store_appends p.file p.bytes (s := { s with
          data := s.data.moveTo p.ncap p.junk
          len := p.ncap
          pend := update s.pend t none }) ha
          (show s.data.size + _ < _ by omega)
        refine ⟨hc.trans ?_, ha', rfl⟩
        rw [FileData.contents_moveTo]
      · rw [relock_of_le hn]
        obtain ⟨hc, ha'⟩ := store_appends p.file p.bytes (s := { s with
          pend := update s.pend t none }) ha (show s.data.size + _ < _ by omega)
        exact ⟨hc, ha', rfl⟩
    obtain ⟨hc, ha', hpend⟩ := hc
    obtain ⟨hperm, hw'⟩ := hw.take hp hpend
    exact ⟨[p.bytes], _, by simp [hc], ha', hw', by simpa [block] using (hperm.map (·.2)).symm⟩

theorem run_appends {ops : List WriteOp} (h : s.Sound) (ha : s.Appending) (hw : s.OnWay l)
    (hl : Run.Legal writeStep WriteOk s ops) (hr : Run.run writeStep s ops = some s') :
    ∃ l1 l', s'.data.contents = s.data.contents ++ l1.flatten ∧ s'.OnWay l' ∧
      (l1 ++ l'.map (·.2)).Perm (l.map (·.2) ++ s.blocks ops) := by
  induction ops generalizing s l with
  | nil =>
    cases hr
    exact ⟨[], l, by simp, hw, by simp [blocks]⟩
  | cons a ops ih =>
    simp only [Run.run, Option.bind_eq_some_iff] at hr
    obtain ⟨s1, h1, h2⟩ := hr
    obtain ⟨l1, k1, hc1, ha1, hw1, hp1⟩ := step_appends h ha hw hl.1 h1
    obtain ⟨l2, k2, hc2, hw2, hp2⟩ :=
      ih (step_sound h ((step_inside h a).2 hl.1) h1) ha1 hw1 (hl.2 s1 h1) h2
    refine ⟨l1 ++ l2, k2, by rw [hc2, hc1]; simp, hw2, ?_⟩
    rw [blocks, h1, Option.elim_some, List.append_assoc, ← List.append_assoc (l.map _)]
    exact (hp2.append_left l1).trans
      ((List.append_assoc l1 _ _) ▸ hp1.append_right (s1.blocks ops))

/-- **Appending from several threads** loses nothing and stays in the buffer exactly if no call
comes back with a buffer that is too short for the size it finds, and no end wraps. -/
theorem appendsAll_iff (h : s.Sound) (ha : s.Appending) (hp : ∀ t, s.pend t = none)
    (ops : List WriteOp) : s.AppendsAll ops ↔ Run.Legal writeStep WriteOk s ops := by
  have hiff := Run.legal_iff_legal (fun _ a h => step_inside h a)
    (fun _ _ _ h hi hs => step_sound h hi hs) h ops
  refine ⟨fun hall => hiff.1 hall.inside, fun hl => ⟨?_, hiff.2 hl, fun s' hr hend => ?_⟩⟩
  · exact (Run.always_of_legal (fun _ _ _ h hi hs => step_sound h hi hs) h (hiff.2 hl)).imp
      fun s h => ⟨h.size, h.cap⟩
  · obtain ⟨l1, l', hc, hw, hperm⟩ := run_appends (l := []) h ha
      ⟨List.nodup_nil, fun t b => by simp [hp]⟩ hl hr
    have hnil : l' = [] := List.eq_nil_iff_forall_not_mem.2 fun ⟨t, b⟩ hb => by
      obtain ⟨p, hq, -⟩ := (hw.mem t b).1 hb
      rw [hend] at hq
      cases hq
    rw [hnil] at hperm
    exact ⟨l1, by simpa using hperm, hc⟩

/-- Two calls that both grow an empty file. -/
theorem appendsAll_iff_two : AppendsAll (.init fun _ => fileAppendData)
    [.enter 0 0 [1, 2] true fun _ => 0, .enter 1 1 [3] true fun _ => 0, .relock 1, .relock 0] :=
  (appendsAll_iff (init_sound _) (fun _ => (by decide : fileAppendData &&& fileAppendData ≠ 0))
    (fun _ => rfl) _).2 (by decide +kernel)

/-- The second call makes the file a page long while the first one, which has allocated a page, is
without the lock: the first one's byte goes behind its page. -/
theorem append_past_buffer : ∃ s, Run.run writeStep (.init fun _ => fileAppendData)
    [.enter 0 0 [1] true fun _ => 0, .enter 1 1 (List.replicate 4096 2) true fun _ => 0,
      .relock 1] = some s ∧ s.data.size = 4096 ∧ ¬ WriteInside s (.relock 0) ∧
    ∃ s', writeStep s (.relock 0) = some s' ∧ s'.data.size = 4097 ∧ s'.data.cap = 4096 := by
  obtain ⟨s, hs, hsize, s', hs', hend⟩ : ∃ s, Run.run writeStep (.init fun _ => fileAppendData)
      [.enter 0 0 [1] true fun _ => 0, .enter 1 1 (List.replicate 4096 2) true fun _ => 0,
        .relock 1] = some s ∧ s.data.size = 4096 ∧ ∃ s', writeStep s (.relock 0) = some s' ∧
      s'.data.size = 4097 ∧ s'.data.cap = 4096 := by decide +kernel
  refine ⟨s, hs, hsize, fun hi => ?_, s', hs', hend⟩
  obtain ⟨p, hp, rfl⟩ := Option.map_eq_some_iff.1 hs'
  have := (hi p hp).size
  omega

end WriteSys

end Aegis
