import MazeOS.Process

/-!
The system calls on file descriptors in `syscalls.c`, with the drivers they
dispatch to: `fs_read` for directories and regular files, `terminal_read` and
`terminal_write`, and the return values of the RTC driver. A call works on the
descriptor table of the running process. `terminal_read` blocks in
`keyboard_read`; the line that the terminal's buffer holds when it is copied is
an argument of the call.
-/
namespace MazeOS.Files
open MazeOS.Runs MazeOS.Bytes MazeOS.Faults MazeOS.Filesystem MazeOS.State MazeOS.Display

def fileUseMask : Nat := 0x1
def fileTypeMask : Nat := 0x6
def fileInUse : Nat := 1
def fileNotInUse : Nat := 0
def rtcFileType : Nat := 0
def dirFileType : Nat := 1
def normalFileType : Nat := 2
def ctrlL : UInt8 := 12

/-- The descriptor table of the running process. -/
def fdsOf (k : Kernel) : Nat → FileDesc := (k.pcbs (getPcb k)).fds

/-- A descriptor of the running process, overwritten. -/
def setFd (k : Kernel) (fd : Nat) (file : FileDesc) : Kernel :=
  setPcb k (getPcb k) { k.pcbs (getPcb k) with fds := Function.update (fdsOf k) fd file }

def InUse (file : FileDesc) : Prop := file.flags &&& fileUseMask = fileInUse

instance (file : FileDesc) : Decidable (InUse file) := inferInstanceAs (Decidable (_ = _))

/-- The file type in the flags of a descriptor. -/
def fileType (file : FileDesc) : Nat := (file.flags &&& fileTypeMask) >>> 1

/-- A signed argument where the code reads it as unsigned. -/
def unsigned (n : Int) : Nat := (n % 2 ^ 32).toNat

/-! ### Drivers -/

def fsRead (fs : Fs) (k : Kernel) (fd : Nat) (buf : Nat → UInt8) (nbytes : Int) :
    Checked (Int × Kernel × (Nat → UInt8)) :=
  let file := fdsOf k fd
  if fileType file = dirFileType then
    match readDentryByIndex fs file.pos with
    | some d =>
      let k := setFd k fd { file with pos := (file.pos + 1) % 2 ^ 32 }
      let name := fun i => d.filename.getD i 0
      if nbytes ≤ filenameSize then
        -- The length of the copy is unsigned, so a negative one runs past both arrays.
        if nbytes < 0 then .error (.overrun (unsigned nbytes))
        else .ok (nbytes,k,copyInto buf 0 name nbytes.toNat)
      else .ok ((d.filename.takeWhile (· ≠ 0)).length,k,copyInto buf 0 name (filenameSize + 1))
    | none => .ok (0,k,buf)
  else if fileType file = normalFileType then
    readData fs (getInodeFromPtr fs file.inode) file.pos buf (unsigned nbytes) >>= fun (bytesRead,after) =>
      if bytesRead = -1 then .ok (0,k,after)
      else .ok (bytesRead,setFd k fd { file with pos := unsigned (file.pos + bytesRead) },after)
  else .ok (0,k,buf)

/-- `terminal_read`, when `keyboard_read` finds `line` in the buffer of the
    terminal. -/
def terminalRead (k : Kernel) (line : List UInt8) (buf : Nat → UInt8) (nbytes : Int) :
    Checked (Int × Kernel × (Nat → UInt8)) :=
  let size := if line.length < unsigned nbytes then line.length else unsigned nbytes
  let after := copyInto buf 0 (fun i => line.getD i 0) size
  if after 0 = ctrlL then
    if nbytes < 0 then .error (.overrun (unsigned nbytes))
    else .ok (0,clearSetpos k 0 0,copyInto after 0 (fun _ => 0) nbytes.toNat)
  else .ok (size,k,after)

/-- The loop of `rtc_write`: whether halving reaches 1 before an odd number. -/
def halvesToOne : Nat → Nat → Bool
  | 0, _ => false
  | left + 1, freq => if freq = 1 then true else if freq % 2 ≠ 0 then false else halvesToOne left (freq / 2)

/-- The return value of `rtc_write`; its loop runs at most ten times. -/
def rtcWrite (buf : Nat → UInt8) (nbytes : Int) : Int :=
  if nbytes ≠ 4 then -1
  else if littleEndian buf < 2 ∨ littleEndian buf > 1024 then -1
  else if halvesToOne 11 (littleEndian buf) then 4 else -1

/-! ### System calls -/

/-- The search of `open` for a descriptor that is not in use, from `i` on. -/
def freeFrom (fds : Nat → FileDesc) : Nat → Nat → Option Nat
  | 0, _ => none
  | left + 1, i => if InUse (fds i) then freeFrom fds left (i + 1) else some i

/-- `open`. `rtc_open` always succeeds, and `fs_open` looks the name up again. -/
def sysOpen (fs : Fs) (k : Kernel) (filename : Nat → UInt8) : Int × Kernel :=
  match readDentryByName fs filename with
  | none => (-1,k)
  | some d =>
    match freeFrom (fdsOf k) (maxOpenFiles - 2) 2 with
    | none => (-1,k)
    | some i =>
      let flags := ((d.filetype <<< 1) &&& fileTypeMask) ||| fileInUse
      if d.filetype = rtcFileType then (i,setFd k i ⟨some .rtc,0,0,flags⟩)
      else if d.filetype = dirFileType then
        if readDentryByName fs filename = none then (-1,k) else (i,setFd k i ⟨some .fs,0,0,flags⟩)
      else if d.filetype = normalFileType then (i,setFd k i ⟨some .fs,getInodePtr fs d.inode,0,flags⟩)
      else (-1,k)

/-- `close`. The `close` operation of every driver returns 0. -/
def sysClose (k : Kernel) (fd : Int) : Checked (Int × Kernel) :=
  if fd < 2 ∨ fd ≥ maxOpenFiles then .ok (-1,k)
  else
    let file := fdsOf k fd.toNat
    if InUse file then
      match file.fileOps with
      | none => .error (.nullOps fd.toNat)
      | some _ => .ok (0,setFd k fd.toNat { file with flags := fileNotInUse, fileOps := none })
    else .ok (-1,k)

/-- `read`; the address 0 of the buffer is NULL. -/
def sysRead (fs : Fs) (k : Kernel) (fd : Int) (address : Nat) (buf : Nat → UInt8) (nbytes : Int)
    (line : List UInt8) : Checked (Int × Kernel × (Nat → UInt8)) :=
  if fd < 0 ∨ fd ≥ maxOpenFiles then .ok (-1,k,buf)
  else if address = 0 then .ok (-1,k,buf)
  else
    let file := fdsOf k fd.toNat
    if InUse file then
      match file.fileOps with
      | none => .error (.nullOps fd.toNat)
      | some .fs => fsRead fs k fd.toNat buf nbytes
      | some .rtc => .ok (0,k,buf)
      | some .stdin => terminalRead k line buf nbytes
      | some .stdout => .ok (-1,k,buf)
    else .ok (-1,k,buf)

/-- `write`. -/
def sysWrite (k : Kernel) (fd : Int) (address : Nat) (buf : Nat → UInt8) (nbytes : Int) : Checked (Int × Kernel) :=
  if fd < 0 ∨ fd ≥ maxOpenFiles then .ok (-1,k)
  else if address = 0 then .ok (-1,k)
  else
    let file := fdsOf k fd.toNat
    if InUse file then
      match file.fileOps with
      | none => .error (.nullOps fd.toNat)
      | some .fs => .ok (-1,k)
      | some .rtc => .ok (rtcWrite buf nbytes,k)
      | some .stdin => .ok (-1,k)
      | some .stdout => .ok (nbytes,terminalWrite k (taken buf nbytes.toNat))
    else .ok (-1,k)

end MazeOS.Files
