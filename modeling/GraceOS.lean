import GraceOS.Lib.BPlusTree.Root
import GraceOS.Lib.BPlusTree.Position
import GraceOS.Lib.BPlusTree.Erase
import GraceOS.Bfs.Map
import GraceOS.Bfs.Files
import GraceOS.Bfs.Blocks
import GraceOS.Bfs.FileOps
import GraceOS.Bfs.History
import GraceOS.Lib.LinkedQueue
import GraceOS.Lib.Machine
import GraceOS.Proc.Calls
import GraceOS.Proc.Death
import GraceOS.Proc.RunQueue
import GraceOS.Proc.Stopped
import GraceOS.Mm.Heap
import GraceOS.Mm.Session
import GraceOS.Lib.Radix
import GraceOS.Mm.Frames
import GraceOS.Mm.PageTables
import GraceOS.Mm.Translate
import GraceOS.Mm.RangeMap
import GraceOS.Mm.PageCount
import GraceOS.Sasy.Backing
import GraceOS.Sasy.Calls
import GraceOS.Sasy.Counted
import GraceOS.Sasy.SwapSpace
import GraceOS.Proc.Running
import GraceOS.Proc.Wait
import GraceOS.Proc.SessionIds
import GraceOS.Proc.Descriptors
import GraceOS.Net.Stream
import GraceOS.Net.Sequence
import GraceOS.Net.Stack
import GraceOS.Chivm.Cmdt
import GraceOS.Chivm.RoundTrip
import GraceOS.Net.Http
import GraceOS.Net.HttpChunks
import GraceOS.Net.HttpFraming
import GraceOS.Net.Packet
import GraceOS.Net.Virtio
import GraceOS.Spm.Policy
import GraceOS.Chivm.Interp
import GraceOS.Chivm.Soundness
import GraceOS.Net.VirtioTx
import GraceOS.Spm.Revoke
import GraceOS.Proc.Privileges
import GraceOS.Proc.GroupKill
import GraceOS.Proc.PipeAtomic
import GraceOS.Sasy.Undo
import GraceOS.Sasy.PageIn
import GraceOS.Llm.GgufRoundTrip
import GraceOS.Llm.GgufBounds
import GraceOS.Basic.ControlFlow
import GraceOS.Llm.Chat
import GraceOS.Llm.Conditioning
import GraceOS.Llm.KvCache
import GraceOS.Llm.Liveness
import GraceOS.Quill.Editor
import GraceOS.Quill.Files
import GraceOS.Quill.Kept
import GraceOS.Quill.Plain
import GraceOS.Video.Drawing
import GraceOS.Video.Addresses
import GraceOS.Zip.Decode
import GraceOS.Zip.Silent
import GraceOS.Zip.Confined
import GraceOS.Llm.Scratch
import GraceOS.Quill.Session
import GraceOS.Zip.RoundTrip
import GraceOS.Cfdisk.Crc
import GraceOS.Cfdisk.Disk
import GraceOS.Cfdisk.Editing
import GraceOS.Cfdisk.Gpt
import GraceOS.Cfdisk.GptEntries
import GraceOS.Cfdisk.GptRoundTrip
import GraceOS.Cfdisk.MbrRoundTrip
import GraceOS.Chivm.Corruption
import GraceOS.Chivm.HexBounds
import GraceOS.Chivm.Agree
import GraceOS.Lib.ShiftRegister
import GraceOS.Lib.Traced
import GraceOS.Proc.Pick
import GraceOS.Cfdisk.Efi
import GraceOS.Log.Klog
import GraceOS.Libc.TimeFormat
import GraceOS.Libc.Calendar
import GraceOS.Bfs.SizeRecord
import GraceOS.Bfs.Room
import GraceOS.Bfs.Independent
import GraceOS.Bfs.Listing
import GraceOS.Bfs.Names
import GraceOS.Bfs.Directory
import GraceOS.Shell.Chdir
import GraceOS.Lib.Separated
import GraceOS.Llm.Unicode
import GraceOS.Lib.Numeral
import GraceOS.Chivm.Literals
import GraceOS.Chivm.Statements
import GraceOS.Chivm.StatementRuns
import GraceOS.Net.HttpLengths
import GraceOS.Net.ChunkRoundTrip
import GraceOS.Basic.Program
import GraceOS.Spm.Users
import GraceOS.Spm.Granted
import GraceOS.Llm.Tokenize
import GraceOS.Llm.TensorData
import GraceOS.Proc.Pids
import GraceOS.Shell.History
import GraceOS.Lib.InPlace
import GraceOS.Libc.Qsort
import GraceOS.Libc.Strtol
import GraceOS.Llm.Snprintf
import GraceOS.Llm.ChatBuffer
import GraceOS.Llm.ChatRoles
import GraceOS.Lib.Visit
import GraceOS.Video.Line
import GraceOS.Video.Circle
import GraceOS.Video.Matrix
import GraceOS.Audio.Wav
import GraceOS.Video.Wrap
import GraceOS.Video.Glyphs
import GraceOS.Video.Echo
import GraceOS.Input.Keyboard
import GraceOS.Basic.Listing
