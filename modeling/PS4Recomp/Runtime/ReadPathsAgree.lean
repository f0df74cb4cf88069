import PS4Recomp.Runtime.ReadPaths

/-!
# Do all the reads deliver the same bytes?

* `ReadPath`, `ReadPath.run` — the entry points of a read, each asked for the same region of a file;
* `SameBytes` — all of them deliver the same bytes and count, and only `read`, `readv` and the raw system
  call move the file position;
* `ps4VfsPread_disk`, `ps4VfsRead_disk`, `ps4VfsRead_pak` — the calls of `ps4_vfs.c`
  deliver the region whatever the descriptor and however the host cuts its answers up;
* **`sameBytes_iff`** — all paths agree exactly on the host's descriptors, where the host moves the whole
  region in one call: the vectored reads, the raw system call, its mapping and the asynchronous read hand
  the descriptor to the host.
-/

namespace PS4Recomp.Runtime.ReadPaths

open Library.PartialRead

/-! ### The property -/

/-- An entry point, and the arguments that do not say what is read. -/
inductive ReadPath where
  | read (buf : Nat)
  | kernelRead (buf : Nat)
  | sysRead (buf : Nat)
  | readv
  | kernelReadv
  | kernelPread (buf : Nat)
  | kernelPreadv
  | mmap (m : MmapArgs)
  | kernelMmap (m : MmapArgs) (resOut : Nat)
  | sysMmap (m : MmapArgs)
  | aio (buf result : Nat)

/-- The count and the bytes of a read that succeeds. -/
def Reply.delivered (r : Reply) : Option (Nat × List UInt8) :=
  if r.errno = none then some (r.rax, r.written) else none

/-- A mapping returns no count: the bytes are what it wrote. -/
def Reply.mappedBytes (r : Reply) : Option (Nat × List UInt8) :=
  if r.writes = [] then none else some (r.written.length, r.written)

def aioDelivered : Option OrbisKernelAioResult × List (Nat × List UInt8) × World →
    Option (Nat × List UInt8) × World
  | (some ⟨returnValue, .completed⟩, writes, w) =>
    (some (returnValue.toNat, writes.flatMap Prod.snd), w)
  | (_, _, w) => (none, w)

/-- The descriptor with its position at `offset`. -/
def seeked (w : World) (fd : Int) (offset : Nat) : World :=
  (ps4VfsLseek w fd offset .seekSet).2

def position (w : World) (fd : Int) : Except Errno Int :=
  (ps4VfsLseek w fd 0 .seekCur).1

/-- A mapping of a file for which there is room. -/
def MmapArgs.OfFile (m : MmapArgs) : Prop :=
  m.flags &&& mapAnonymous = 0 ∧ m.allocAddr ≠ none

namespace ReadPath

/-- The paths that take an offset and leave the position alone. -/
def positional : ReadPath → Bool
  | .read _ | .kernelRead _ | .sysRead _ | .readv | .kernelReadv => false
  | _ => true

/-- A path reads the region of `iov`'s total length at `offset`; one that is not positional reads at the
position, which is there. -/
def run (w : World) (fd : Int) (offset : Nat) (iov : List IoVec) :
    ReadPath → Option (Nat × List UInt8) × World
  | .read buf => (shimRead (seeked w fd offset) fd buf (totalLen iov)).map Reply.delivered id
  | .kernelRead buf => (shimSceKernelRead (seeked w fd offset) fd buf (totalLen iov)).map Reply.delivered id
  | .sysRead buf =>
    (ReadPaths.sysRead (seeked w fd offset) fd buf (totalLen iov)).map Reply.delivered id
  | .readv => (shimReadv (seeked w fd offset) fd iov).map Reply.delivered id
  | .kernelReadv => (shimSceKernelReadv (seeked w fd offset) fd iov).map Reply.delivered id
  | .kernelPread buf => (shimSceKernelPread w fd buf (totalLen iov) offset).map Reply.delivered id
  | .kernelPreadv => (shimSceKernelPreadv w fd iov offset).map Reply.delivered id
  | .mmap m => (shimMmap m w fd (totalLen iov) offset).map Reply.mappedBytes id
  | .kernelMmap m resOut =>
    (shimSceKernelMmap m resOut w fd (totalLen iov) offset).map Reply.mappedBytes id
  | .sysMmap m => (ReadPaths.sysMmap m w fd (totalLen iov) offset).map Reply.mappedBytes id
  | .aio buf result => aioDelivered (executeReadRequest w ⟨offset, totalLen iov, buf, result, fd⟩)

/-- The arguments are ones that the path takes. -/
def Takes (iov : List IoVec) : ReadPath → Prop
  | .readv | .kernelReadv | .kernelPreadv => IovOk iov
  | .mmap m | .sysMmap m => 0 < totalLen iov ∧ m.OfFile
  | .kernelMmap m resOut => 0 < totalLen iov ∧ m.OfFile ∧ resOut ≠ 0
  | .aio _ result => result ≠ 0
  | _ => True

end ReadPath

/-- A path delivers `bytes`, and leaves the position behind them or, if positional, where it was. -/
def ReadPath.Delivers (p : ReadPath) (w : World) (fd : Int) (offset : Nat) (iov : List IoVec)
    (bytes : List UInt8) : Prop :=
  (p.run w fd offset iov).1 = some (bytes.length, bytes) ∧
    position (p.run w fd offset iov).2 fd =
      if p.positional then position w fd else .ok (offset + bytes.length)

/-- **Every path delivers `bytes`.** -/
def SameBytes (w : World) (fd : Int) (offset : Nat) (iov : List IoVec) (bytes : List UInt8) : Prop :=
  ∀ p : ReadPath, p.Takes iov → p.Delivers w fd offset iov bytes

/-! ### Open descriptors -/

/-- What a descriptor that `ps4_vfs_open` returned is, until it is closed. -/
inductive Opened (w : World) (fd : Int) : Prop where
  | disk (f : HostFile) (nonneg : 0 ≤ fd) (isVirtual : ps4VfsIsVirtualFd fd = false) (host : w.host fd = some f)
  | pak (slot : Nat) (isVirtual : ps4VfsIsVirtualFd fd = true) (slot_eq : virtualSlot w fd = some slot)
      (host : w.host fd = none)

/-! ### The calls of `ps4_vfs.c` -/

/-- The host only interrupts: calls on its open files do not fail. -/
def Healthy (w : World) : Prop := OnlyFails eintr w.answers

theorem hostPread_eq {w : World} {fd : Int} {f : HostFile} (hf : w.host fd = some f) (count offset : Nat) :
    hostPread w fd count offset =
      ((transfer f.content offset count w.answers).1,
        { w with answers := (transfer f.content offset count w.answers).2 }) := by
  rw [hostPread, hf]
  show (if (offset : Int) < 0 then _ else _) = _
  rw [if_neg (by omega), Int.toNat_natCast]

/-- Reads at the offsets from `base` on deliver the slice there. -/
theorem preadDevice_serves {w : World} {fd : Int} {f : HostFile} (hf : w.host fd = some f) {base count : Nat}
    {offset : Nat → Int} (hoffset : ∀ total < count, offset total = (base + total : Nat)) :
    (preadDevice fd offset).Serves count (slice f.content base count) fun _ w' =>
      ∃ rest, w' = { w with answers := rest } ∧ OnlyFails eintr rest where
  interrupted := by
    rintro _ total e w' ⟨rest, rfl, hrest⟩ htotal hcall
    change hostPread _ fd (count - total) (offset total) = _ at hcall
    rw [hoffset total htotal] at hcall
    rcases hostPread_error hcall with ⟨⟨hnone, -⟩ | ⟨hneg, -⟩, -⟩ | ⟨tail, hanswers, rfl⟩
    · rw [hf] at hnone
      cases hnone
    · omega
    · have hmem : Answer.fails e ∈ rest := by
        rw [show rest = Answer.fails e :: tail from hanswers]
        exact List.mem_cons_self
      exact ⟨hrest e hmem, tail, rfl, hrest.mono ⟨[.fails e], hanswers.symm⟩⟩
  ok := by
    rintro _ total bytes w' ⟨rest, rfl, hrest⟩ htotal hcall
    change hostPread _ fd (count - total) (offset total) = _ at hcall
    rw [hoffset total htotal] at hcall
    obtain ⟨f', tail, hf', htransfer, rfl⟩ := hostPread_ok hcall
    obtain rfl : f = f' := Option.some.inj (hf.symm.trans hf')
    obtain ⟨hpre, hnil, hsuffix⟩ := transfer_ok htransfer
    rw [Int.toNat_natCast, ← slice_drop] at hpre hnil
    exact ⟨hpre, fun hb => List.drop_eq_nil_iff.1 (hnil hb), tail, rfl, hrest.mono hsuffix⟩

theorem gather_pread {w : World} (hw : Healthy w) {fd : Int} {f : HostFile} (hf : w.host fd = some f)
    {base count : Nat} {offset : Nat → Int} (hoffset : ∀ total < count, offset total = (base + total : Nat)) :
    ∃ rest, (preadDevice fd offset).gather count [] w =
      (.ok (slice f.content base count), { w with answers := rest }) := by
  obtain ⟨w', hgather, rest, rfl, -⟩ := Device.gather_eq (preadDevice_serves hf hoffset)
    (by rw [slice_length]; exact Nat.min_le_left _ _) [] w List.nil_prefix ⟨w.answers, rfl, hw⟩
  exact ⟨rest, hgather⟩

/-- The world after `total` bytes were read from a file of the host. -/
def advanced (w : World) (fd : Int) (f : HostFile) (total : Nat) (rest : List (Answer Errno)) : World :=
  { w with answers := rest, host := Function.update w.host fd (some { f with pos := f.pos + total }) }

theorem advanced_host (w : World) (fd : Int) (f : HostFile) (total : Nat) (rest : List (Answer Errno)) :
    (advanced w fd f total rest).host fd = some { f with pos := f.pos + total } :=
  Function.update_self ..

theorem readDevice_serves (w : World) (fd : Int) (f : HostFile) (count : Nat) :
    (readDevice fd).Serves count (slice f.content f.pos count) fun total w' =>
      ∃ rest, w' = advanced w fd f total rest ∧ OnlyFails eintr rest where
  interrupted := by
    rintro _ total e w' ⟨rest, rfl, hrest⟩ htotal hcall
    rcases hostRead_error hcall with ⟨hnone, -, -⟩ | ⟨tail, hanswers, rfl⟩
    · rw [advanced_host] at hnone
      cases hnone
    · have hmem : Answer.fails e ∈ rest := by
        rw [show rest = Answer.fails e :: tail from hanswers]
        exact List.mem_cons_self
      exact ⟨hrest e hmem, tail, rfl, hrest.mono ⟨[.fails e], hanswers.symm⟩⟩
  ok := by
    rintro _ total bytes w' ⟨rest, rfl, hrest⟩ htotal hcall
    obtain ⟨f', tail, hf', htransfer, rfl⟩ := hostRead_ok hcall
    rw [advanced_host] at hf'
    cases hf'
    obtain ⟨hpre, hnil, hsuffix⟩ := transfer_ok htransfer
    rw [← slice_drop] at hpre hnil
    refine ⟨hpre, fun hb => List.drop_eq_nil_iff.1 (hnil hb), tail, ?_, hrest.mono hsuffix⟩
    rw [advanced, advanced, Function.update_idem, Nat.add_assoc]

theorem gather_read {w : World} (hw : Healthy w) {fd : Int} {f : HostFile} (hf : w.host fd = some f) (count : Nat) :
    ∃ rest, (readDevice fd).gather count [] w =
      (.ok (slice f.content f.pos count),
        advanced w fd f (slice f.content f.pos count).length rest) := by
  have hstart : w = advanced w fd f 0 w.answers := by
    rw [advanced, Nat.add_zero, ← hf, Function.update_eq_self]
  obtain ⟨w', hgather, rest, rfl, -⟩ := Device.gather_eq (readDevice_serves w fd f count)
    (by rw [slice_length]; exact Nat.min_le_left _ _) [] w List.nil_prefix ⟨w.answers, hstart, hw⟩
  exact ⟨rest, hgather⟩

/-- `ps4_vfs_pread` of a file on disk, however the host cuts it up. -/
theorem ps4VfsPread_disk {w : World} (hw : Healthy w) {fd : Int} {f : HostFile}
    (hfd : ps4VfsIsVirtualFd fd = false) (hf : w.host fd = some f) (count offset : Nat) :
    ∃ rest, ps4VfsPread w fd count offset =
      (.ok (slice f.content offset count), { w with answers := rest }) := by
  have hoff : ∀ total < count, (offset : Int) + total = (offset + total : Nat) :=
    fun total _ => (Int.natCast_add offset total).symm
  obtain ⟨rest, hgather⟩ := gather_pread hw hf hoff
  refine ⟨rest, ?_⟩
  rw [ps4VfsPread, if_neg (by rw [hfd]; exact Bool.false_ne_true), hf]
  exact hgather

theorem ps4VfsRead_disk {w : World} (hw : Healthy w) {fd : Int} {f : HostFile}
    (hfd : ps4VfsIsVirtualFd fd = false) (hf : w.host fd = some f) (count : Nat) :
    ∃ rest, ps4VfsRead w fd count =
      (.ok (slice f.content f.pos count),
        advanced w fd f (slice f.content f.pos count).length rest) := by
  obtain ⟨rest, hgather⟩ := gather_read hw hf count
  refine ⟨rest, ?_⟩
  rw [ps4VfsRead, if_neg (by rw [hfd]; exact Bool.false_ne_true), hf]
  exact hgather

theorem toU64_natCast {n : Nat} (h : n < 2 ^ 64) : toU64 n = n := by
  rw [toU64]
  omega

theorem toOff_eq {n : Nat} (h : n < 2 ^ 63) : toOff n = n := by
  unfold toOff
  exact Int.bmod_eq_of_le (by omega) (by omega)

/-- A file of a pak archive: where its bytes are, with the sums of the code within `off_t`. -/
structure PakFile (w : World) (slot : Nat) (pak : HostFile) : Prop where
  host : w.host (w.gVfiles slot).pakFd = some pak
  bound : (w.gVfiles slot).dataOffset + (w.gVfiles slot).fileSize < 2 ^ 63

/-- The bytes of the file. -/
def pakBytes (w : World) (slot : Nat) (pak : HostFile) : List UInt8 :=
  slice pak.content (w.gVfiles slot).dataOffset (w.gVfiles slot).fileSize

theorem toRead_eq {fileSize offset count : Nat} (h : offset + count < 2 ^ 64) :
    toRead fileSize offset count = min count (fileSize - offset) ∨ fileSize ≤ offset := by
  rw [toRead, Nat.mod_eq_of_lt h]
  split
  · omega
  · omega

theorem gather_pak {w : World} (hw : Healthy w) {slot : Nat} {pak : HostFile} (h : PakFile w slot pak)
    {offset count : Nat} (hcount : offset + count < 2 ^ 64) (hoffset : offset < (w.gVfiles slot).fileSize) :
    ∃ rest, (preadDevice (w.gVfiles slot).pakFd fun total =>
        toOff ((w.gVfiles slot).dataOffset + offset + total)).gather
          (toRead (w.gVfiles slot).fileSize offset count) [] w =
      (.ok (slice (pakBytes w slot pak) offset count), { w with answers := rest }) := by
  have hbound := h.bound
  have hread : toRead (w.gVfiles slot).fileSize offset count = min count ((w.gVfiles slot).fileSize - offset) :=
    (toRead_eq hcount).resolve_right (Nat.not_le.2 hoffset)
  have hoff : ∀ total < toRead (w.gVfiles slot).fileSize offset count,
      toOff ((w.gVfiles slot).dataOffset + offset + total) =
        ((w.gVfiles slot).dataOffset + offset + total : Nat) := by
    intro total htotal
    rw [hread] at htotal
    exact toOff_eq (by omega)
  obtain ⟨rest, hgather⟩ := gather_pread hw h.host hoff
  refine ⟨rest, ?_⟩
  rw [pakBytes, slice_slice, ← hread]
  exact hgather

theorem slice_past_end {content : List UInt8} {offset count : Nat} (h : content.length ≤ offset) :
    slice content offset count = [] := by
  rw [slice, List.drop_eq_nil_of_le h, List.take_nil]

theorem pakBytes_length_le (w : World) (slot : Nat) (pak : HostFile) :
    (pakBytes w slot pak).length ≤ (w.gVfiles slot).fileSize := by
  rw [pakBytes, slice_length]
  exact Nat.min_le_left _ _

/-- `ps4_vfs_read` inside a pak archive, from the position. -/
theorem ps4VfsRead_pak {w : World} (hw : Healthy w) {fd : Int} {slot : Nat} {pak : HostFile}
    (hfd : ps4VfsIsVirtualFd fd = true) (hslot : virtualSlot w fd = some slot) (h : PakFile w slot pak)
    {offset count : Nat} (hpos : (w.gVfiles slot).curOffset = offset) (hcount : offset + count < 2 ^ 64) :
    (ps4VfsRead w fd count).1 = .ok (slice (pakBytes w slot pak) offset count) := by
  have hu : toU64 (w.gVfiles slot).curOffset = offset := by rw [hpos, toU64_natCast (by omega)]
  rw [ps4VfsRead, if_pos hfd, hslot]
  simp only [hu]
  by_cases hend : (w.gVfiles slot).fileSize ≤ offset
  · rw [if_pos hend, slice_past_end (Nat.le_trans (pakBytes_length_le w slot pak) hend)]
  · obtain ⟨rest, hgather⟩ := gather_pak hw h hcount (by omega)
    rw [if_neg hend, hgather]

/-! ### The calls on the host -/

theorem hostPread_prompt {w : World} {fd : Int} {f : HostFile} (hf : w.host fd = some f) {count offset : Nat}
    (hprompt : Prompt (slice f.content offset count).length w.answers) :
    ∃ rest, hostPread w fd count offset =
      (.ok (slice f.content offset count), { w with answers := rest }) := by
  obtain ⟨rest, htransfer⟩ := transfer_prompt hprompt
  exact ⟨rest, by rw [hostPread_eq hf, htransfer]⟩

theorem hostRead_prompt {w : World} {fd : Int} {f : HostFile} (hf : w.host fd = some f) {count : Nat}
    (hprompt : Prompt (slice f.content f.pos count).length w.answers) :
    ∃ rest, hostRead w fd count =
      (.ok (slice f.content f.pos count), advanced w fd f (slice f.content f.pos count).length rest) := by
  obtain ⟨rest, htransfer⟩ := transfer_prompt hprompt
  exact ⟨rest, by rw [hostRead, hf]; simp only [htransfer]; rfl⟩

theorem seeked_disk {w : World} {fd : Int} {f : HostFile} (hfd : ps4VfsIsVirtualFd fd = false)
    (hf : w.host fd = some f) (offset : Nat) :
    seeked w fd offset = { w with host := Function.update w.host fd (some { f with pos := offset }) } := by
  rw [seeked, ps4VfsLseek, if_neg (by rw [hfd]; exact Bool.false_ne_true), hostLseek, hf]
  show (if (offset : Int) < 0 then _ else _ : Except Errno Int × World).2 = _
  rw [if_neg (by omega), Int.toNat_natCast]

theorem seeked_host {w : World} {fd : Int} {f : HostFile} (hfd : ps4VfsIsVirtualFd fd = false)
    (hf : w.host fd = some f) (offset : Nat) : (seeked w fd offset).host fd = some { f with pos := offset } := by
  rw [seeked_disk hfd hf]
  exact Function.update_self ..

theorem position_disk {w : World} {fd : Int} {f : HostFile} (hfd : ps4VfsIsVirtualFd fd = false)
    (hf : w.host fd = some f) : position w fd = .ok f.pos := by
  rw [position, ps4VfsLseek, if_neg (by rw [hfd]; exact Bool.false_ne_true), hostLseek, hf]
  show (if (f.pos : Int) + 0 < 0 then _ else _ : Except Errno Int × World).1 = _
  rw [if_neg (by omega), Int.add_zero]

theorem scatter_written : ∀ (iov : List IoVec) (bytes : List UInt8), bytes.length ≤ totalLen iov →
    (scatter iov bytes).flatMap Prod.snd = bytes := by
  intro iov
  induction iov with
  | nil =>
    intro bytes hle
    exact (List.eq_nil_of_length_eq_zero (Nat.le_zero.1 hle)).symm
  | cons v iov ih =>
    intro bytes hle
    have htotal : totalLen (v :: iov) = v.len + totalLen iov := List.sum_cons
    rw [scatter, List.flatMap_cons, ih (bytes.drop v.len) (by rw [List.length_drop]; omega),
      List.take_append_drop]

theorem slice_length_le (content : List UInt8) (offset count : Nat) :
    (slice content offset count).length ≤ count := by
  rw [slice_length]
  exact Nat.min_le_left _ _

theorem mapped_eq (failure : Errno → Reply) (success : Nat → Reply)
    {pread : World → Int → Nat → Int → Except Errno (List UInt8) × World} {m : MmapArgs} {w w' : World}
    {fd : Int} {len : Nat} {offset : Int} {bytes : List UInt8} (hm : m.OfFile) (hfd : 0 ≤ fd) (hlen : 0 < len)
    (hread : pread w fd len offset = (.ok bytes, w')) :
    (mapped failure success pread m w fd len offset).map Reply.mappedBytes id =
      (some (bytes.length, bytes), w') := by
  obtain ⟨hflags, halloc⟩ := hm
  obtain ⟨addr, haddr⟩ := Option.ne_none_iff_exists'.1 halloc
  rw [mapped, if_neg (Nat.ne_of_gt hlen), haddr]
  simp only [if_pos (And.intro hflags hfd), hread]
  show (Reply.mappedBytes { success addr with writes := [(addr, bytes)] }, w') = _
  rw [Reply.mappedBytes, if_neg (List.cons_ne_nil _ _)]
  show (some ((bytes ++ []).length, bytes ++ []), w') = _
  rw [List.append_nil]

theorem vectored_eq {failure : Errno → Reply} {w w' : World} {iov : List IoVec}
    (call : Nat → Except Errno (List UInt8) × World) {bytes : List UInt8} (hiov : IovOk iov)
    (hlen : bytes.length ≤ totalLen iov) (hcall : call (totalLen iov) = (.ok bytes, w')) :
    (vectored failure w iov call).map Reply.delivered id = (some (bytes.length, bytes), w') := by
  rw [vectored, if_pos hiov, hcall]
  show (some (bytes.length, (scatter iov bytes).flatMap Prod.snd), w') = _
  rw [scatter_written iov bytes hlen]

theorem replyOf_eq {failure : Errno → Reply} {w' : World} {buf : Nat}
    {r : Except Errno (List UInt8) × World} {bytes : List UInt8} (hr : r = (.ok bytes, w')) :
    (replyOf failure (fun bytes => [(buf, bytes)]) r).map Reply.delivered id =
      (some (bytes.length, bytes), w') := by
  rw [hr]
  show (some (bytes.length, bytes ++ []), w') = _
  rw [List.append_nil]

theorem aio_eq {w w' : World} {fd : Int} {offset count buf result : Nat} {bytes : List UInt8}
    (hresult : result ≠ 0) (hread : hostPread w fd count offset = (.ok bytes, w')) :
    aioDelivered (executeReadRequest w ⟨offset, count, buf, result, fd⟩) =
      (some (bytes.length, bytes), w') := by
  unfold executeReadRequest
  simp only [hread, if_pos hresult]
  show (some (bytes.length, bytes ++ []), w') = _
  rw [List.append_nil]

section Disk

variable {w : World} {fd : Int} {f : HostFile} {offset : Nat} {iov : List IoVec} {bytes : List UInt8}
  {p : ReadPath} {rest : List (Answer Errno)}

theorem delivers_of_read (hfd : ps4VfsIsVirtualFd fd = false) (hp : p.positional = false)
    (hrun : p.run w fd offset iov = (some (bytes.length, bytes),
      advanced (seeked w fd offset) fd { f with pos := offset } bytes.length rest)) :
    p.Delivers w fd offset iov bytes := by
  rw [ReadPath.Delivers, hrun, hp]
  refine ⟨rfl, (position_disk hfd (advanced_host _ _ _ _ rest)).trans ?_⟩
  show (Except.ok (((offset + bytes.length : Nat) : Int)) : Except Errno Int) = .ok _
  rw [Int.natCast_add]

/-- A path that reads at an offset leaves the file alone. -/
theorem delivers_of_pread (hfd : ps4VfsIsVirtualFd fd = false) (hf : w.host fd = some f)
    (hp : p.positional = true)
    (hrun : p.run w fd offset iov = (some (bytes.length, bytes), { w with answers := rest })) :
    p.Delivers w fd offset iov bytes := by
  have hstays : position { w with answers := rest } fd = position w fd := by
    rw [position_disk hfd hf]
    exact position_disk hfd hf
  rw [ReadPath.Delivers, hrun, hp]
  exact ⟨rfl, hstays⟩

/-- **On a descriptor of the host, with the region in one call, every path delivers the same bytes.** -/
theorem sameBytes_of_prompt (hw : Healthy w) (hnonneg : 0 ≤ fd) (hfd : ps4VfsIsVirtualFd fd = false)
    (hf : w.host fd = some f) (hprompt : Prompt (slice f.content offset (totalLen iov)).length w.answers) :
    SameBytes w fd offset iov (slice f.content offset (totalLen iov)) := by
  have hf' := seeked_host hfd hf offset
  have hw' : Healthy (seeked w fd offset) := by
    rw [seeked_disk hfd hf]
    exact hw
  have hprompt' : Prompt (slice f.content offset (totalLen iov)).length (seeked w fd offset).answers := by
    rw [seeked_disk hfd hf]
    exact hprompt
  have hle := slice_length_le f.content offset (totalLen iov)
  -- the four calls that the paths are made of
  obtain ⟨_, hread⟩ := ps4VfsRead_disk hw' hfd hf' (totalLen iov)
  obtain ⟨_, hhostRead⟩ := hostRead_prompt hf' hprompt'
  obtain ⟨_, hpread⟩ := ps4VfsPread_disk hw hfd hf (totalLen iov) offset
  obtain ⟨_, hhostPread⟩ := hostPread_prompt hf hprompt
  intro p hp
  cases p with
  | read buf => exact delivers_of_read hfd rfl (replyOf_eq hread)
  | kernelRead buf => exact delivers_of_read hfd rfl (replyOf_eq hread)
  | sysRead buf => exact delivers_of_read hfd rfl (replyOf_eq hhostRead)
  | readv => exact delivers_of_read hfd rfl (vectored_eq _ hp hle hhostRead)
  | kernelReadv => exact delivers_of_read hfd rfl (vectored_eq _ hp hle hhostRead)
  | kernelPread buf => exact delivers_of_pread hfd hf rfl (replyOf_eq hpread)
  | kernelPreadv => exact delivers_of_pread hfd hf rfl (vectored_eq (fun count => hostPread w fd count offset) hp hle hhostPread)
  | mmap m => exact delivers_of_pread hfd hf rfl (mapped_eq posixFailure _ hp.2 hnonneg hp.1 hpread)
  | kernelMmap m resOut =>
    obtain ⟨hlen, hm, hout⟩ := hp
    have hcheck : shimSceKernelMmap m resOut w fd (totalLen iov) offset =
        mapped mmapFailure (fun addr => { rax := 0, resOut := some addr }) ps4VfsPread m w fd (totalLen iov)
          offset := by
      rw [shimSceKernelMmap, if_neg (by omega), if_neg hm.2]
    have hmapped := mapped_eq mmapFailure (fun addr => { rax := 0, resOut := some addr }) hm hnonneg
      hlen hpread
    rw [← hcheck] at hmapped
    exact delivers_of_pread hfd hf rfl hmapped
  | sysMmap m => exact delivers_of_pread hfd hf rfl (mapped_eq _ _ hp.2 hnonneg hp.1 hhostPread)
  | aio buf result => exact delivers_of_pread hfd hf rfl (aio_eq hp hhostPread)

/-- The raw system call delivers what one host call moves. -/
theorem transfer_of_sysRead (hfd : ps4VfsIsVirtualFd fd = false) (hf : w.host fd = some f)
    (h : (ReadPath.sysRead 0).Delivers w fd offset iov bytes) :
    (transfer f.content offset (totalLen iov) w.answers).1 = .ok bytes := by
  have hrun := h.1
  change ((ReadPaths.sysRead (seeked w fd offset) fd 0 (totalLen iov)).map Reply.delivered id).1 = _ at hrun
  rw [ReadPaths.sysRead, seeked_disk hfd hf, hostRead] at hrun
  simp only [Function.update_self] at hrun
  split at hrun
  · cases hrun
  · next got rest htransfer =>
    change some (got.length, got ++ []) = some (bytes.length, bytes) at hrun
    rw [List.append_nil] at hrun
    rw [htransfer, (Prod.mk.inj (Option.some.inj hrun)).2]

theorem slice_of_read (hw : Healthy w) (hfd : ps4VfsIsVirtualFd fd = false) (hf : w.host fd = some f)
    (h : (ReadPath.read 0).Delivers w fd offset iov bytes) :
    bytes = slice f.content offset (totalLen iov) := by
  have hw' : Healthy (seeked w fd offset) := by
    rw [seeked_disk hfd hf]
    exact hw
  obtain ⟨_, hread⟩ := ps4VfsRead_disk hw' hfd (seeked_host hfd hf offset) (totalLen iov)
  have hrun := h.1
  rw [show (ReadPath.read 0).run w fd offset iov = _ from replyOf_eq hread] at hrun
  exact (Prod.mk.inj (Option.some.inj hrun)).2.symm

end Disk

/-- A virtual descriptor is none of the host's: the raw system call fails. -/
theorem not_sysRead_of_pak {w : World} {fd : Int} (hfd : ps4VfsIsVirtualFd fd = true)
    (hhost : w.host fd = none) (offset : Nat) (iov : List IoVec) (bytes : List UInt8) :
    ¬(ReadPath.sysRead 0).Delivers w fd offset iov bytes := by
  have hseek : (seeked w fd offset).host = w.host := by
    rw [seeked, ps4VfsLseek, if_pos hfd]
    split
    · rfl
    · show (if (offset : Int) < 0 then _ else _ : Except Errno Int × World).2.host = _
      rw [if_neg (by omega)]
  rintro ⟨hrun, -⟩
  change ((ReadPaths.sysRead (seeked w fd offset) fd 0 (totalLen iov)).map Reply.delivered id).1 = _ at hrun
  rw [ReadPaths.sysRead, hostRead, hseek, hhost] at hrun
  cases hrun

/-! ### The result -/

/-- **All paths deliver the same bytes if and only if the descriptor is the host's and the host moves the
region in one call.** -/
theorem sameBytes_iff {w : World} {fd : Int} (hopen : Opened w fd) (hw : Healthy w) (offset : Nat)
    (iov : List IoVec) :
    (∃ bytes, SameBytes w fd offset iov bytes) ↔
      ps4VfsIsVirtualFd fd = false ∧
        ∀ f, w.host fd = some f → Prompt (slice f.content offset (totalLen iov)).length w.answers := by
  cases hopen with
  | disk f hnonneg hfd hf =>
    constructor
    · rintro ⟨bytes, hsame⟩
      refine ⟨hfd, fun f' hf' => ?_⟩
      obtain rfl : f = f' := Option.some.inj (hf.symm.trans hf')
      have hbytes := slice_of_read hw hfd hf (hsame (.read 0) trivial)
      rw [← transfer_eq_slice_iff, ← hbytes]
      exact transfer_of_sysRead hfd hf (hsame (.sysRead 0) trivial)
    · rintro ⟨-, hprompt⟩
      exact ⟨_, sameBytes_of_prompt hw hnonneg hfd hf (hprompt f hf)⟩
  | pak slot hfd _ hhost =>
    constructor
    · rintro ⟨bytes, hsame⟩
      exact absurd (hsame (.sysRead 0) trivial) (not_sysRead_of_pak hfd hhost offset iov bytes)
    · rintro ⟨hdisk, -⟩
      rw [hfd] at hdisk
      cases hdisk

/-- A file on disk, of which the host moves up to three bytes in the next call. -/
def diskWorld : World where
  host fd := if fd = 3 then some { content := [10, 20, 30, 40] } else none
  answers := [.moves 2]
  gVfiles _ := {}

theorem sameBytes_iff_disk : ∃ bytes, SameBytes diskWorld 3 1 [⟨0, 1⟩, ⟨64, 2⟩] bytes := by
  have hopen : Opened diskWorld 3 := .disk { content := [10, 20, 30, 40] } (by decide) (by decide) rfl
  have hhealthy : Healthy diskWorld := by
    intro e he
    rcases List.mem_singleton.1 he with h
    cases h
  refine (sameBytes_iff hopen hhealthy 1 [⟨0, 1⟩, ⟨64, 2⟩]).2 ⟨by decide, ?_⟩
  intro f hf
  cases hf
  exact (by decide : 3 ≤ 2 + 1)

/-- A game with one archive, and a file of three bytes in it. -/
def pakEnv : Env where
  resolve _ := none
  access _ := false
  parentLocalePaths _ := []
  pakLookup path := if path = "a.res".toList then some ⟨3, 1, 3⟩ else none
  hostOpen w _ _ := (.error enoent, w)

def pakWorld : World where
  host fd := if fd = 3 then some { content := [10, 20, 30, 40] } else none
  answers := []
  gVfiles _ := {}

/-- The file in the archive, opened. -/
def openedPakWorld : World := (ps4VfsOpen pakEnv pakWorld "/app0/a.res".toList {}).2

/-- `read` delivers a file of the archive, the raw system call does not. -/
theorem sysRead_fails_in_pak :
    (ps4VfsOpen pakEnv pakWorld "/app0/a.res".toList {}).1 = .ok 10000 ∧
    (ps4VfsRead openedPakWorld 10000 3).1 = .ok [20, 30, 40] ∧
    ¬∃ bytes, SameBytes openedPakWorld 10000 0 [⟨0, 3⟩] bytes := by
  refine ⟨by rfl, ?_, ?_⟩
  · have hfile : PakFile openedPakWorld 0 { content := [10, 20, 30, 40] } := ⟨by rfl, by decide⟩
    have hpos : (openedPakWorld.gVfiles 0).curOffset = (0 : Nat) := by rfl
    have hhealthy : Healthy openedPakWorld := fun e he => (List.not_mem_nil he).elim
    exact ps4VfsRead_pak hhealthy (by decide) (by rfl) hfile hpos (by decide)
  · rintro ⟨bytes, hsame⟩
    exact not_sysRead_of_pak (by decide) (by rfl) 0 [⟨0, 3⟩] bytes (hsame (.sysRead 0) trivial)

end PS4Recomp.Runtime.ReadPaths
