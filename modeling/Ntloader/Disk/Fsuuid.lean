import Ntloader.Kern.Args

/-!
# File system identifiers

A partition is the one to boot from if the serial number in its volume boot record is the one of the
command line.

* `DiskRead` — what `disk_read` gives for a sector.
* `volumeUuid`, `checkFsuuid` — disk/fsuuid.c.
-/

namespace Ntloader.Disk

open Ntloader.Lib Ntloader.Posix Ntloader.Kern

/-- What `disk_read` puts to the buffer for a sector, if the sector can be read. -/
abbrev DiskRead := ℕ → Option Mem

/-- A number in hexadecimal digits, with zeros in front.
Source: posix/vsprintf.c, format_hex, with the flag for lower case -/
def hex : ℕ → ℕ → List UInt8
  | 0, _ => []
  | width + 1, num =>
      hex width (num / 16) ++ [(str "0123456789abcdef").getD (num % 16) 0]

/-- A serial number of 32 bits.
Source: disk/fsuuid.c, check_fsuuid, the format `%04x-%04x` -/
def uuid32 (serial : ℕ) : List UInt8 :=
  hex 4 (serial / 2 ^ 16 % 2 ^ 16) ++ 0x2d :: hex 4 (serial % 2 ^ 16)

/-- The identifier of a volume; a space if its file system is not known.
Source: disk/fsuuid.c, check_fsuuid; include/fsuuid.h, union volume_boot_record -/
def volumeUuid (vbr : Mem) : List UInt8 :=
  if vbr.bytes 3 5 = str "EXFAT" then uuid32 (vbr.word 100 4)
  else if vbr.bytes 3 4 = str "NTFS" then hex 16 (vbr.word 72 8)
  else if vbr.bytes 54 5 = str "FAT12" then uuid32 (vbr.word 39 4)
  else if vbr.bytes 54 5 = str "FAT16" then uuid32 (vbr.word 39 4)
  else if vbr.bytes 82 5 = str "FAT32" then uuid32 (vbr.word 67 4)
  else str " "

/-- Source: disk/fsuuid.c, check_fsuuid -/
def checkFsuuid (disk : DiskRead) (args : NtArgs) (lba : ℕ) : Bool :=
  match disk lba with
  | none => false
  | some vbr => strcasecmp (volumeUuid vbr) args.fsuuid.toString

end Ntloader.Disk
