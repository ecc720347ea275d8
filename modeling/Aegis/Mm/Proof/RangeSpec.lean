import Aegis.Mm.Proof.Builds
import Aegis.Mm.Proof.HostProtect

/-!
# Ranges of bytes and ranges of pages

`vmm_protect_user` finds out whether a range of pages has a hole, and its calls for the clips of a run
go one level deep. A range of bytes is another matter: base and size are rounded each on its own, so
the last page of the range can be left out.
-/

namespace Aegis

open SwapList Apart

/-! ## Runs of VADs -/

section
variable {α : Type} {l : List (Slot α)} {stop cur k n : Nat}
variable {base r : Nat} {v : Slot α}

/-- The VADs that end at `cur` or before. -/
def passed (l : List (Slot α)) (cur : Nat) : Nat := l.countP fun v => v.stop ≤ cur

theorem passed_le (l : List (Slot α)) (cur : Nat) : passed l cur ≤ l.length := List.countP_le_length

theorem passed_lt (hv : v ∈ l) (hp : v.Has cur) : passed l cur < passed l v.stop := by
  obtain ⟨a, b, rfl⟩ := List.append_of_mem hv
  have hlt := hp.2
  have hmono : ∀ l : List (Slot α), passed l cur ≤ passed l v.stop := fun l =>
    List.countP_mono_left fun u _ hu => by
      simp only [decide_eq_true_eq] at hu ⊢
      omega
  have ha := hmono a
  have hb := hmono b
  unfold passed at *
  rw [List.countP_append, List.countP_append, List.countP_cons_of_neg (by simpa using hlt),
    List.countP_cons_of_pos (by simp)]
  omega

theorem hole_of_none (hlt : cur < stop) (hl : vadLookup l cur = none) : Hole l cur stop :=
  ⟨cur, le_rfl, hlt, fun _ hv => vadLookup_none hl hv⟩

theorem hole_iff_of_has (hv : v ∈ l) (hp : v.Has cur) : Hole l cur stop ↔ Hole l v.stop stop := by
  constructor
  · rintro ⟨a, h1, h2, h3⟩
    refine ⟨a, ?_, h2, h3⟩
    by_contra hlt
    exact h3 v hv ⟨hp.1.trans h1, by omega⟩
  · rintro ⟨a, h1, h2, h3⟩
    exact ⟨a, hp.2.le.trans h1, h2, h3⟩

theorem not_hole_of_le (h : stop ≤ cur) : ¬ Hole l cur stop := by
  rintro ⟨a, h1, h2, -⟩
  omega

/-- `vad_run_covers` gives up for a hole only: there are no more than `MAX_VADS` VADs to pass. -/
theorem runLoop_eq_none (hcount : l.length ≤ maxVads) (hn : n ≤ passed l cur)
    (hk : k + n = maxVads + 2) : runLoop l stop k cur n = none ↔ Hole l cur stop := by
  induction k generalizing cur n with
  | zero =>
    have := passed_le l cur
    omega
  | succ k ih =>
    unfold runLoop
    by_cases hlt : cur < stop
    · rw [if_pos hlt]
      cases hl : vadLookup l cur with
      | none => simpa using hole_of_none hlt hl
      | some x =>
        obtain ⟨v, i⟩ := x
        obtain ⟨hi, hp⟩ := vadLookup_some hl
        have hv := List.mem_of_getElem? hi
        have hpass : n + 1 ≤ passed l v.stop := hn.trans_lt (passed_lt hv hp)
        have hle := passed_le l v.stop
        simp only
        rw [if_neg (not_le.2 hp.2), if_neg (by omega), ih hpass (by omega), hole_iff_of_has hv hp]
    · rw [if_neg hlt]
      simpa using not_hole_of_le (not_lt.1 hlt)

theorem runLoop_le (h : runLoop l stop k cur n = some r) : n ≤ r ∧ (cur < stop → n + 1 ≤ r) := by
  induction k generalizing cur n with
  | zero => cases h
  | succ k ih =>
    unfold runLoop at h
    split at h
    · next hlt =>
      split at h
      · cases h
      · split at h
        · cases h
        · split at h
          · cases h
          · have := (ih h).1
            omega
    · next hge =>
      have he := Option.some.inj h
      exact ⟨he.le, fun hlt => absurd hlt hge⟩

theorem two_le_run (hlt : base < stop) (hc : vadContainsRange l base stop = none)
    (h : runLoop l stop k base 0 = some r) : 2 ≤ r := by
  cases k with
  | zero => cases h
  | succ k =>
    unfold runLoop at h
    rw [if_pos hlt] at h
    split at h
    · cases h
    · next v i hl =>
      obtain ⟨hi, hp⟩ := vadLookup_some hl
      have hshort : v.stop < stop := by
        by_contra hge
        obtain ⟨x, hx⟩ := vadContainsRange_isSome
          ⟨v, List.mem_of_getElem? hi, hp.1, not_lt.1 hge⟩ hlt
        rw [hc] at hx
        cases hx
      rw [if_neg (not_le.2 hp.2)] at h
      split at h
      · cases h
      · exact (runLoop_le h).2 hshort

theorem clipLoop_of_run (hcount : l.length ≤ maxVads) (hn : n ≤ passed l cur)
    (hk : k + n = maxVads) (hh : ¬ Hole l cur stop) : ∃ clips, clipLoop l stop k cur = .ok clips := by
  induction k generalizing cur n with
  | zero =>
    unfold clipLoop
    by_cases hlt : cur < stop
    · -- all VADs are passed, so none has the byte at `cur`
      have hall : passed l cur = l.length := by
        have := passed_le l cur
        omega
      have hend := List.countP_eq_length.1 hall
      refine absurd ⟨cur, le_rfl, hlt, fun v hv hp => ?_⟩ hh
      have hle : v.stop ≤ cur := by simpa using hend v hv
      omega
    · rw [if_neg hlt]
      exact ⟨[], rfl⟩
  | succ k ih =>
    unfold clipLoop
    by_cases hlt : cur < stop
    · rw [if_pos hlt]
      cases hl : vadLookup l cur with
      | none => exact absurd (hole_of_none hlt hl) hh
      | some x =>
        obtain ⟨v, i⟩ := x
        obtain ⟨hi, hp⟩ := vadLookup_some hl
        have hv := List.mem_of_getElem? hi
        simp only
        by_cases hend : v.stop > stop
        · rw [if_pos hend, if_neg (not_le.2 hlt)]
          refine ⟨[(cur, stop)], ?_⟩
          have hnil : clipLoop l stop k stop = .ok [] := by
            cases k <;> exact if_neg (lt_irrefl _)
          rw [hnil]
          rfl
        · rw [if_neg hend, if_neg (not_le.2 hp.2)]
          have hpass : n + 1 ≤ passed l v.stop := hn.trans_lt (passed_lt hv hp)
          obtain ⟨clips, hc⟩ := ih hpass (by omega) fun hh' => hh ((hole_iff_of_has hv hp).2 hh')
          rw [hc]
          exact ⟨(cur, v.stop) :: clips, rfl⟩
    · rw [if_neg hlt]
      exact ⟨[], rfl⟩

theorem vadRunCovers_eq_none (hcount : l.length ≤ maxVads) (hb : base % 4096 = 0)
    (hlt : base < stop) (htop : base < 2 ^ 64) :
    vadRunCovers l base stop = none ↔ Hole l base stop := by
  have hrun : runLoop l stop (maxVads + 2) base 0 = none ↔ Hole l base stop :=
    runLoop_eq_none hcount (Nat.zero_le (passed l base)) rfl
  unfold vadRunCovers
  rw [if_neg (not_le.2 hlt), pageAlignDown_of_lt htop,
    show base / 4096 * 4096 = base by omega]
  cases hl : vadLookup l base with
  | none => simpa using hole_of_none hlt hl
  | some x => rw [← hrun, Option.map_eq_none_iff]

/-! ## Bytes and pages -/

theorem has_page (hok : v.Ok) (a : Nat) : v.Has (a / 4096 * 4096) ↔ v.Has a := by
  have h1 := hok.start
  have h2 := hok.stop
  unfold Vad.Has
  omega

theorem dataAt_page {β : Type} {f : Slot α → β} (hok : ∀ v ∈ l, v.Ok) (happ : AllApart l) {a : Nat}
    {x : β} : dataAt (fun v _ => f v) l (a / 4096 * 4096) = some x ↔
      ∃ v ∈ l, v.Has a ∧ f v = x := by
  rw [dataAt_eq_some happ]
  exact exists_congr fun v => and_congr_right fun hv => and_congr_left' (has_page (hok v hv) a)

theorem protAt_eq_some (hok : ∀ v ∈ l, v.Ok) (happ : AllApart l) {a : Nat} {prot : Prot} :
    protAt l (a / 4096) = some prot ↔ ∃ v ∈ l, v.Has a ∧ v.prot = prot :=
  dataAt_page (f := fun v => v.prot) hok happ

theorem protAt_erase (l : List (Slot α)) (q : Nat) : protAt (l.map Slot.erase) q = protAt l q := by
  unfold protAt
  rw [vadLookup_erase, Option.map_map]
  rfl

theorem hole_erase (l : List (Slot α)) (lo hi : Nat) :
    Hole (l.map Slot.erase) lo hi ↔ Hole l lo hi := by
  unfold Hole
  simp only [List.forall_mem_map]
  rfl

theorem protects_erase (l : List (Slot α)) (lo hi : Nat) (prot : Prot) :
    Protects (l.map Slot.erase) lo hi prot ↔ Protects l lo hi prot := by
  unfold Protects
  simp only [List.mem_map, exists_exists_and_eq_and]
  rfl

theorem user_prot (s : Host) (q : Nat) : (s.user q).map Prod.fst = protAt s.as.slots q := by
  unfold Host.user dataAt protAt
  rw [Option.map_map]
  rfl

end

/-! ## `vmm_protect_user` -/

section
variable {oom : Nat → Bool} {s s' : Host} {v : Slot Shadow} {i base size stop : Nat} {prot : Prot}
  {st : Status} {old : Option Prot}

theorem PageRange.rounded (hr : PageRange base size) :
    pageAlignDown base = base ∧ pageAlignUp size = size ∧ u64 (base + size) = base + size ∧
      size < 2 ^ 64 ∧ outsideUser base size = false := by
  have h1 : base % 4096 = 0 := hr.aligned
  have h2 : size % 4096 = 0 := hr.pages
  have h3 := hr.pos
  have h := range_of_page h1 (show (base + size) % 4096 = 0 by omega) (by omega) hr.top
  rwa [Nat.add_sub_cancel_left] at h

/-- A range of pages has a hole, or lies in one VAD, or the call comes to its clips. -/
theorem protectRange_pages {σ α : Type} (slots : σ → List (Slot α))
    (contained : σ → Nat → Slot α → Nat → Nat → Nat → Outcome (Status × Option Prot × σ)) {s : σ}
    (hcount : (slots s).length ≤ maxVads) (happ : AllApart (slots s)) (hr : PageRange base size)
    (hp : protLegal prot = true) :
    (Hole (slots s) base (base + size) ∧ ∀ k,
      protectRange slots contained prot (k + 1) s base size = .ok (.conflictingAddresses, none, s)) ∨
    ¬ Hole (slots s) base (base + size) ∧ ∃ v, protAt (slots s) (base / pageSize) = some v.prot ∧
      ((∃ i, vadContainsRange (slots s) base (u64 (base + size)) = some (v, i) ∧ ∀ k,
        protectRange slots contained prot (k + 1) s base size =
          contained s i v base size (u64 (base + size))) ∨
      ∃ clips, clipLoop (slots s) (base + size) maxVads base = .ok clips ∧ ∀ k,
        protectRange slots contained prot (k + 1) s base size =
          (protectClips (protectRange slots contained prot k) clips s).bind fun r =>
            .ok (r.1, some v.prot, r.2)) := by
  obtain ⟨hdown, hup, hu, hlt, hin⟩ := hr.rounded
  have hpos := hr.pos
  have hal : base % 4096 = 0 := hr.aligned
  have hbase : base / pageSize * pageSize = base := Nat.div_mul_cancel (Nat.dvd_of_mod_eq_zero hal)
  cases hc : vadContainsRange (slots s) base (base + size) with
  | some x =>
    obtain ⟨hi, hlt', h1, h2⟩ := vadContainsRange_some hc
    have hv := List.mem_of_getElem? hi
    refine .inr ⟨?_, x.1, ?_, .inl ⟨x.2, by rw [hu, hc], fun k => ?_⟩⟩
    · rintro ⟨a, ha, hb, hn⟩
      exact absurd ⟨h1.trans ha, hb.trans_le h2⟩ (hn x.1 hv)
    · obtain ⟨j, hl⟩ := vadLookup_of_mem happ hv ⟨h1, hlt'.trans_le h2⟩
      rw [protAt, hbase, hl]
      rfl
    · rw [protectRange, if_neg hpos.ne', if_neg (by simp [hp])]
      simp only [hdown, hup, hin, hu, hc]
      rfl
  | none =>
    have htop : base + size ≤ 2 ^ 47 := hr.top
    have hrun := vadRunCovers_eq_none hcount hal (show base < base + size by omega) (by omega)
    cases hcov : vadRunCovers (slots s) base (base + size) with
    | none =>
      refine .inl ⟨hrun.1 hcov, fun k => ?_⟩
      rw [protectRange, if_neg hpos.ne', if_neg (by simp [hp])]
      simp only [hdown, hup, hin, hu, hc, hcov]
      rfl
    | some x =>
      obtain ⟨v, n⟩ := x
      have hh : ¬ Hole (slots s) base (base + size) := fun hh => by
        rw [hrun.2 hh] at hcov
        cases hcov
      obtain ⟨clips, hcl⟩ := clipLoop_of_run (k := maxVads) hcount
        (Nat.zero_le (passed (slots s) base)) rfl hh
      obtain ⟨hfirst, hn⟩ : protAt (slots s) (base / pageSize) = some v.prot ∧ 2 ≤ n := by
        unfold vadRunCovers at hcov
        rw [if_neg (by omega), hdown] at hcov
        rw [protAt, hbase]
        split at hcov
        · cases hcov
        · next u j hl =>
          obtain ⟨r, hr', he⟩ := Option.map_eq_some_iff.1 hcov
          cases he
          exact ⟨by rw [hl]; rfl, two_le_run (by omega) hc hr'⟩
      refine .inr ⟨hh, v, hfirst, .inr ⟨clips, hcl, fun k => ?_⟩⟩
      rw [protectRange, if_neg hpos.ne', if_neg (by simp [hp])]
      simp only [hdown, hup, hin, hu, hc, hcov, hcl, not_lt.2 hn]
      rfl

variable (oom) in
/-- One level is enough for the calls that `vmm_protect_user` makes. -/
theorem Host.protectAt_pages (h : HostInv s) (hr : PageRange base size)
    (hp : protLegal prot = true) :
    ∃ st old s', (∀ k, Host.protectAt oom prot (k + 2) s base size = .ok (st, old, s')) ∧
      (st = .conflictingAddresses ↔ Hole s.as.slots base (base + size)) ∧
      (st = .conflictingAddresses → s' = s) ∧
      (st = .success → old = protAt s.as.slots (base / pageSize)) := by
  obtain ⟨-, -, -, hlt, hin⟩ := hr.rounded
  have hal : base % 4096 = 0 := hr.aligned
  have hsz : size % 4096 = 0 := hr.pages
  rcases protectRange_pages (fun s : Host => s.as.slots)
      (fun s i v base size stop => s.protectContained oom i v base size stop prot) h.vads.count
      h.vads.apart hr hp with ⟨hh, hk⟩ | ⟨hh, v, hfirst, ⟨i, hc, hk⟩ | ⟨clips, hcl, hk⟩⟩
  · exact ⟨.conflictingAddresses, none, s, fun k => hk (k + 1), iff_of_true rfl hh, fun _ => rfl,
      nofun⟩
  · obtain ⟨st, old, s', he, -, hne, hold⟩ := protectContained_spec oom h ⟨hal, hsz, hlt, hin, hc⟩ prot
    exact ⟨st, old, s', fun k => (hk (k + 1)).trans he, iff_of_false hne hh,
      fun hst => absurd hst hne, fun hst => (hold hst).trans hfirst.symm⟩
  · obtain ⟨hclips, ho⟩ := (clipLoop_chain hcl).ok h.vads.ok hal (by omega)
    obtain ⟨st, s', -, hall, hne, -⟩ := Host.protectClips_spec oom hp h hclips ho
    refine ⟨st, some v.prot, s', fun k => (hk (k + 1)).trans ?_, iff_of_false hne hh,
      fun hst => absurd hst hne, fun _ => hfirst.symm⟩
    show (protectClips (Host.protectAt oom prot (k + 1)) clips s).bind _ = _
    rw [hall k]
    rfl

end

end Aegis
