import Aegis.Mm.Proof.CpuMem
import Aegis.Ob.Proof.Token
import Aegis.Ob.Proof.PipeEnds
import Aegis.Ob.Proof.PipeWake
import Aegis.Ke.Proof.Fpu
import Aegis.Ke.Proof.WaitBlocks
import Aegis.Ke.Proof.Gs
import Aegis.Ke.Proof.TimerQueue
import Aegis.Ke.Proof.Irq
import Aegis.Fs.Proof.RaceRun
import Aegis.Fs.Proof.ElfContents
import Aegis.Ke.Proof.Views
import Aegis.Mm.Proof.PmmFree
import Aegis.Mm.Proof.PmmMeta
import Aegis.Mm.Proof.AllocUser
import Aegis.Mm.Proof.AllocUndo
import Aegis.Mm.Proof.WriteExec
import Aegis.Mm.Proof.Coalesce
import Aegis.Ke.Proof.Terminate
import Aegis.Ke.Proof.Poll
import Aegis.Fs.Proof.Append
import Aegis.Fs.Proof.Holes
import Aegis.Fs.Proof.Readdir
import Aegis.Ke.Proof.RankStack
import Aegis.Io.Proof.Irp
import Aegis.Ke.Proof.Kstack
import Aegis.Ke.Proof.FileAccess
import Aegis.Ke.Proof.Switch
import Aegis.Hal.Kbd
import Aegis.Hal.Proof.Kbd
