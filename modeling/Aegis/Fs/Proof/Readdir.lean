import Aegis.Fs.Proof.Lookup

/-!
# Listing a directory (`vfs_readdir`)

A call lists entries from the offset of the File object on, as many as fit, and moves the offset
behind them. With room for any one name, calls one after another list every entry once.
-/

namespace Aegis

namespace Vfs

variable {cap f k v : Nat} {cs done pre : List Name} {restart : Bool} {s : Vfs}

/-- What a caller gets that calls until `STATUS_END_OF_FILE`, at most `k` times. -/
def listDir (f cap : Nat) : Nat → Bool → Vfs → Option (List Name)
  | 0, _, _ => none
  | k + 1, restart, s =>
    match s.vfsReaddir f cap restart with
    | .ok (.success, out, s') => (listDir f cap k false s').map (out :: ·)
    | .ok (.endOfFile, _, _) => some []
    | _ => none

theorem intercalate_concat (x : UInt8) (done : List Name) (c : Name) :
    [x].intercalate (done ++ [c]) =
      if done = [] then c else [x].intercalate done ++ x :: c := by
  induction done with
  | nil => simp
  | cons d l ih =>
    rw [List.cons_append, List.intercalate_cons_of_ne_nil (by simp), ih]
    cases l <;> simp [List.intercalate_cons_cons]

theorem intercalate_eq_nil (x : UInt8) (hcs : ∀ c ∈ cs, c ≠ []) :
    [x].intercalate cs = [] ↔ cs = [] := by
  cases cs with
  | nil => simp
  | cons c l =>
    have hc := hcs c List.mem_cons_self
    cases l <;> simp [hc]

theorem readdirLoop_skip (cap idx : Nat) (pre cs : List Name) (buf : Name) :
    readdirLoop cap (pre ++ cs) idx buf (idx + pre.length) =
      readdirLoop cap cs (idx + pre.length) buf (idx + pre.length) := by
  induction pre generalizing idx with
  | nil => rfl
  | cons c pre ih =>
    rw [List.cons_append, readdirLoop, if_pos (by simp), List.length_cons,
      show idx + (pre.length + 1) = idx + 1 + pre.length by omega, ih]

/-- The entries that fit are put behind those in the buffer; the first one fits. -/
theorem readdirLoop_takes (cap : Nat) (hcs : ∀ c ∈ cs, c ≠ []) (hdone : ∀ c ∈ done, c ≠ [])
    (off : Nat) :
    ∃ chunk rest, cs = chunk ++ rest ∧ readdirLoop cap cs off ([newline].intercalate done) off =
      ([newline].intercalate (done ++ chunk), off + chunk.length) ∧
      (done = [] → chunk = [] → ∀ c ∈ cs.head?, cap ≤ c.length + 2) := by
  induction cs generalizing done off with
  | nil => exact ⟨[], [], rfl, by simp [readdirLoop], by simp⟩
  | cons c cs ih =>
    obtain ⟨hc, hcs⟩ := List.forall_mem_cons.1 hcs
    rw [readdirLoop, if_neg (lt_irrefl off)]
    by_cases hfull : ([newline].intercalate done).length + (c.length + 2) ≥ cap
    · rw [if_pos hfull]
      refine ⟨[], c :: cs, rfl, by simp, fun hd _ => ?_⟩
      subst hd
      simpa using hfull
    · have hbuf : (if [newline].intercalate done ≠ [] then [newline].intercalate done ++ [newline]
          else [newline].intercalate done) ++ c = [newline].intercalate (done ++ [c]) := by
        simp only [intercalate_concat, ne_eq, intercalate_eq_nil newline hdone, ite_not]
        split_ifs with hd
        · simp [hd]
        · simp
      rw [if_neg hfull, hbuf]
      have hdone' : ∀ x ∈ done ++ [c], x ≠ [] := by
        simpa [or_imp, forall_and] using ⟨hdone, hc⟩
      obtain ⟨chunk, rest, rfl, he, -⟩ := ih hcs hdone' (off + 1)
      refine ⟨c :: chunk, rest, rfl, ?_, fun _ h => by cases h⟩
      rw [he, List.append_assoc, List.length_cons, Nat.add_right_comm, Nat.add_assoc]
      rfl

/-- A caller that has got to the entry behind `pre` gets the rest. -/
theorem listDir_rest (hv : (s.file f).vnode = some v) (hd : (s.vnode v).kind = .dir)
    (hnames : (s.vnode v).children.map (fun c => (s.vnode c).name) = pre ++ cs)
    (hcs : ∀ c ∈ cs, c ≠ [] ∧ c.length < nameMax) (hcap : nameMax + 2 ≤ cap)
    (hoff : (if restart then 0 else (s.file f).toOpenFile.offset) = pre.length)
    (hk : cs.length < k) :
    ∃ chunks : List (List Name), listDir f cap k restart s =
      some (chunks.map [newline].intercalate) ∧ chunks.flatten = cs ∧ ∀ l ∈ chunks, l ≠ [] := by
  induction k generalizing s pre cs restart with
  | zero => cases hk
  | succ k ih =>
    obtain ⟨chunk, rest, rfl, he, hfirst⟩ := readdirLoop_takes cap (fun c hc => (hcs c hc).1)
      (show ∀ c ∈ ([] : List Name), c ≠ [] by simp) pre.length
    have hcall : s.vfsReaddir f cap restart =
        .ok (if [newline].intercalate chunk ≠ [] then .success else .endOfFile,
          [newline].intercalate chunk, s.setOffset f (pre.length + chunk.length)) := by
      have hskip := readdirLoop_skip cap 0 pre (chunk ++ rest) []
      rw [Nat.zero_add] at hskip
      rw [List.nil_append, List.intercalate_nil] at he
      simp only [vfsReaddir, hv, hd, hnames, hoff, hskip, he]
      rfl
    have hnil := intercalate_eq_nil newline fun c hc => (hcs c (List.mem_append_left rest hc)).1
    rw [listDir, hcall]
    by_cases hchunk : chunk = []
    · subst hchunk
      have hrest : rest = [] := by
        cases rest with
        | nil => rfl
        | cons c l =>
          have h1 := hfirst rfl rfl c rfl
          have h2 := (hcs c (by simp)).2
          omega
      subst hrest
      exact ⟨[], rfl, rfl, by simp⟩
    · rw [if_pos (mt hnil.1 hchunk)]
      have hlen := List.length_pos_iff.2 hchunk
      obtain ⟨chunks, hl, hflat, hall⟩ := ih (s := s.setOffset f (pre.length + chunk.length))
        (((setOffset_sameShape s f _).file f).trans hv) hd
        (hnames.trans (List.append_assoc pre chunk rest).symm)
        (fun c hc => hcs c (List.mem_append_right chunk hc))
        (show (if false then _ else _) = _ by simp [setOffset, setFile])
        (by rw [List.length_append] at hk; omega)
      exact ⟨chunk :: chunks, by simp [hl], by simp [hflat], by simpa using ⟨hchunk, hall⟩⟩

/-- **Listing.** In every state that the calls lead to, whoever has a directory open and reads it
from its start, with a buffer for more than any one name, gets the names of all its entries, in
order and each once, some in every call, before `STATUS_END_OF_FILE`. -/
theorem listDir_complete {ops : List VfsOp} (hl : Run.Legal vfsStep VfsOk .init ops)
    (hr : Run.run vfsStep .init ops = some s) (hv : (s.file f).vnode = some v)
    (hd : (s.vnode v).kind = .dir) (hcap : nameMax + 2 ≤ cap)
    (hk : (s.vnode v).children.length < k) :
    ∃ chunks : List (List Name), listDir f cap k true s =
      some (chunks.map [newline].intercalate) ∧
      chunks.flatten = (s.vnode v).children.map (fun c => (s.vnode c).name) ∧
      ∀ l ∈ chunks, l ≠ [] := by
  obtain ⟨s₁, hs, hinv⟩ := run_vfsInv hl
  cases hr.symm.trans hs
  have h := hinv.shape
  refine listDir_rest hv hd (List.nil_append _).symm (fun c hc => ?_) hcap rfl (by simpa using hk)
  obtain ⟨u, hu, rfl⟩ := List.mem_map.1 hc
  exact h.names v u hu

/-- `/a` and `/b` are the entries of `/`. -/
theorem listDir_complete_two : ∃ s, Run.run vfsStep .init [.mkdir [slash] [97] true,
      .mkdir [slash] [98] true, .open [slash] [slash] fileReadData fileOpen 0 true true] = some s ∧
    ∃ chunks : List (List Name), listDir 0 66 3 true s =
      some (chunks.map [newline].intercalate) ∧ chunks.flatten = [[97], [98]] := by
  obtain ⟨s, hs, v, hv, hd, hn, hk⟩ : ∃ s, Run.run vfsStep .init [.mkdir [slash] [97] true,
      .mkdir [slash] [98] true, .open [slash] [slash] fileReadData fileOpen 0 true true] = some s ∧
      ∃ v, (s.file 0).vnode = some v ∧ (s.vnode v).kind = .dir ∧
      (s.vnode v).children.map (fun c => (s.vnode c).name) = [[97], [98]] ∧
      (s.vnode v).children.length < 3 := by
    decide +kernel
  obtain ⟨chunks, h1, h2, -⟩ :=
    listDir_complete (by decide +kernel) hs hv hd (show nameMax + 2 ≤ 66 by decide) hk
  exact ⟨s, hs, chunks, h1, h2.trans hn⟩

end Vfs

end Aegis
