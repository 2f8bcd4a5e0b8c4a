import Ntloader.Arch
import Ntloader.Lib.Memory
import Ntloader.Lib.Moves
import Ntloader.Lib.Lz77
import Ntloader.Lib.WriteLog
import Ntloader.Huffman.Decode
import Ntloader.Huffman.Complete
import Ntloader.Lznt1.Decompress
import Ntloader.Lznt1.Encoding
import Ntloader.Lznt1.RoundTrip
import Ntloader.Lznt1.Rounds
import Ntloader.Lznt1.Sizing
import Ntloader.Lznt1.Confined
import Ntloader.Xca.Decompress
import Ntloader.Xca.Layout
import Ntloader.Xca.RoundTrip
import Ntloader.Xca.Progress
import Ntloader.Xca.Sizing
import Ntloader.Xca.Confined
import Ntloader.Bmtool.Passes
import Ntloader.Bmtool.Scan
import Ntloader.Posix.String
import Ntloader.Posix.Memory
import Ntloader.Posix.Move
import Ntloader.Cpio.Extract
import Ntloader.Cpio.Safety
import Ntloader.Cpio.Mkinitrd
import Ntloader.Cpio.RoundTrip
import Ntloader.Vdisk.Geometry
import Ntloader.Vdisk.Files
import Ntloader.Vdisk.Sectors
import Ntloader.Vdisk.Directory
import Ntloader.Vdisk.Read
import Ntloader.Vdisk.Records
import Ntloader.Vdisk.Image
import Ntloader.Vdisk.Refine
import Ntloader.Vdisk.Split
import Ntloader.Vdisk.DataPath
import Ntloader.Vdisk.EndMarkers
import Ntloader.Vdisk.Termination
import Ntloader.Vdisk.Listing
import Ntloader.Kern.Args
import Ntloader.Kern.Cmdline
import Ntloader.Charset
import Ntloader.Bcd.Device
import Ntloader.Bcd.LoadOptions
import Ntloader.Disk.Fsuuid
import Ntloader.Disk.Msdos
import Ntloader.Disk.Identity
import Ntloader.Disk.Chain
import Ntloader.Paging.Memmap
import Ntloader.Paging.Relocate
import Ntloader.Paging.Frame
import Ntloader.Lib.Recursion
import Ntloader.Lib.Traced
import Ntloader.Reg.Cells
import Ntloader.Reg.Lookup
import Ntloader.Reg.Open
import Ntloader.Reg.Tree
import Ntloader.Reg.Delete
import Ntloader.Reg.Values
import Ntloader.Reg.Access
import Ntloader.Reg.Bounds
import Ntloader.Reg.Bins
import Ntloader.Reg.Enumerate
import Ntloader.Reg.Names
import Ntloader.Lib.Replace
import Ntloader.Bcd.Suffix
import Ntloader.Reg.Header
import Ntloader.Reg.Volatile
import Ntloader.Reg.Repair
import Ntloader.Reg.Hive
import Ntloader.Reg.Isolation
import Ntloader.Lib.Fields
import Ntloader.Lib.Updates
import Ntloader.Bcd.Patch
import Ntloader.Bcd.Encoding
import Ntloader.Bcd.Exact
import Ntloader.Kern.Effects
import Ntloader.Kern.Commute
import Ntloader.Kern.Defaults
import Ntloader.Kern.Imgofs
import Ntloader.Charset.Shortest
import Ntloader.Disk.Tables
import Ntloader.Disk.Ends
import Ntloader.Disk.Debug
import Ntloader.Disk.Biosdisk
import Ntloader.Disk.Chs
import Ntloader.Disk.Efidisk
import Ntloader.Disk.Gpt
import Ntloader.Disk.DevicePath
import Ntloader.Disk.Devices
import Ntloader.Posix.Vsprintf
import Ntloader.Disk.FsuuidTool
import Ntloader.Pe.Loader
import Ntloader.Pe.Image
import Ntloader.Pe.Reads
import Ntloader.Paging.Iterate
import Ntloader.Posix.Format
import Ntloader.Lib.Loop
import Ntloader.Posix.Libgcc
import Ntloader.Disk.Divide
import Ntloader.Lib.Compare
import Ntloader.Disk.Sorted
import Ntloader.Xca.Symbols
import Ntloader.Lznt1.Split
import Ntloader.Lib.Cursor
import Ntloader.Xca.Cursor
import Ntloader.Lib.Groups
import Ntloader.Elf2efi.Relocs
import Ntloader.Elf2efi.Sections
import Ntloader.Elf2efi.Encode
import Ntloader.Elf2efi.Layout
import Ntloader.Lib.Fat
import Ntloader.Vdisk.Mount
import Ntloader.Kern.Int13
import Ntloader.Kern.Payload
import Ntloader.Kern.Efiblock
import Ntloader.Kern.Main
import Ntloader.Lib.Rebase
import Ntloader.Elf2efi.Object
import Ntloader.Elf2efi.Output
import Ntloader.Elf2efi.Loaded
import Ntloader.Elf2efi.Meaning
import Ntloader.Paging.Low
