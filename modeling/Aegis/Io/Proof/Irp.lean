import Aegis.Io.Irp
import Aegis.Lib.Run

/-!
# No request packet is ever freed

`io_free_irp` frees a packet whose count drops to one, and every packet has count one.
-/

namespace Aegis

variable {δ : Type} {f : BlockFile δ}

theorem ioCallDriver_ref (dev : DeviceObject δ) (ext : δ) (irp : Irp) :
    (ioCallDriver dev ext irp).2.1.ref = irp.ref := by
  unfold ioCallDriver
  split
  · rfl
  · split
    · rfl
    · split <;> rfl

theorem ioFreeIrp_last {irp : Irp} (h : irp.ref = 1) (heap : Heap) (p : Nat) :
    ioFreeIrp heap p irp = heap := by
  rw [ioFreeIrp, h]
  exact if_neg (by decide)

theorem transfer_heap (s : BlockState δ) (op : Transfer) :
    (f.transfer s op).2.2.heap = s.heap ∧ ¬ f.Requests op ∨
      (∃ p, (f.transfer s op).2.2.heap = (p, 128) :: s.heap) ∧ f.Requests op := by
  unfold BlockFile.transfer BlockFile.Requests
  split
  · next h => exact .inl ⟨rfl, fun hr => by simp [h] at hr⟩
  · next hbuf =>
    split
    · next h =>
      refine .inl ⟨rfl, fun hr => ?_⟩
      obtain ⟨r, hr, hne⟩ := hr.2.1
      exact hne (by simpa using List.all_eq_true.1 h r hr)
    · next hacc =>
      have hright : ∃ r ∈ op.rights, f.access &&& r ≠ 0 := by
        simpa using hacc
      split
      · next h => exact .inl ⟨rfl, fun hr => hr.2.2.1 h⟩
      · next dev hdev =>
        cases hirp : op.irp with
        | none => exact .inl ⟨rfl, fun hr => hr.2.2.2 rfl⟩
        | some p =>
          refine .inr ⟨⟨p, ?_⟩, by simpa using hbuf, hright, by simp [hdev], by simp⟩
          simp only [ioAllocIrp, Option.map_some]
          exact ioFreeIrp_last (ioCallDriver_ref ..) ..

/-- **Block device transfers leave the heap alone exactly as long as no call gets a request
packet.** -/
theorem block_io_keeps_heap_iff (f : BlockFile δ) (s : BlockState δ) (ops : List Transfer) :
    Run.Always f.step (fun s' => s'.heap = s.heap) s ops ↔
      Run.Legal f.step (fun _ op => ¬ f.Requests op) s ops := by
  have henv : Run.Legal f.step (fun _ _ => True) s ops := Run.legal_of_forall fun _ _ _ => trivial
  refine Run.always_iff_legal (I := fun _ => True) (fun s' op _ hs' _ => ?_) trivial rfl henv
  refine ⟨_, rfl, ?_, fun _ => trivial⟩
  obtain ⟨he, hno⟩ | ⟨⟨p, he⟩, hreq⟩ :=
    transfer_heap (f := f) { s' with offset := op.seek.getD s'.offset } op
  · exact ⟨fun _ => hno, fun _ => he.trans hs'⟩
  · refine ⟨fun h => ?_, fun hno => absurd hreq hno⟩
    have hlen := congrArg List.length (he.symm.trans h)
    simp [hs'] at hlen

/-- The first block of the ramdisk is read: the packet stays. -/
theorem block_io_leaks :
    ∃ s, Run.run (BlockFile.mk fileReadData (some ramdiskDevice)).step ⟨0, [], some (2 ^ 20)⟩
        [⟨false, true, 512, none, some 4096⟩] = some s ∧
      s.offset = 512 ∧ s.heap = [(4096, 128)] ∧ heapUsed s.heap = 128 := by
  decide +kernel

end Aegis
