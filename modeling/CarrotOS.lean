import CarrotOS.Elf.Place
import CarrotOS.Elf.Stack
import CarrotOS.Exe.Prolog
import CarrotOS.Fs.Free
import CarrotOS.Fs.Mirror
import CarrotOS.Fs.Pipe
import CarrotOS.Fs.Read
import CarrotOS.Fs.Rename
import CarrotOS.Fs.Stat
import CarrotOS.Input.Tty
import CarrotOS.Mem.Build
import CarrotOS.Mem.Heap
import CarrotOS.Mem.Multiboot
import CarrotOS.Mem.Reclaim
import CarrotOS.Net.Accept
import CarrotOS.Net.Checksum
import CarrotOS.Net.E1000
import CarrotOS.Net.Fin
import CarrotOS.Net.Payload
import CarrotOS.Net.PeerFin
import CarrotOS.Net.Port
import CarrotOS.Net.Readers
import CarrotOS.Net.Resolve
import CarrotOS.Net.Send
import CarrotOS.Net.Syn
import CarrotOS.Net.UnixDgram
import CarrotOS.Sched.Choice
import CarrotOS.Sched.Count
import CarrotOS.Sched.Session
import CarrotOS.Sched.Stack
import CarrotOS.Sched.Stop
import CarrotOS.Sched.Wait
