import Redbx.Core.Bytes

/-
  A region of a disk under buffered writes.

  A write puts a new image of the region into the buffer, a flush makes the newest image durable.
  After a crash each byte is the durable one or that of any buffered image.

  Key theorems include:
    * `Disk.Torn.slice_eq`, `Disk.Torn.getElem?_eq`
-/

-- Writes And Flushes

/- One call into the storage. -/
inductive IoEvent where
  | write (image : Bytes)
  | flush
  deriving DecidableEq

/- The durable image and the images written since. -/
structure Disk where
  durable : Bytes
  pending : List Bytes

namespace Disk

/- Nothing is buffered. -/
def clean (image : Bytes) : Disk := ⟨image, []⟩

def step (disk : Disk) : IoEvent → Disk
  | .write image =>
    { disk with pending := disk.pending ++ [image] }
  | .flush =>
    clean (disk.pending.getLastD disk.durable)

def run (disk : Disk) (events : List IoEvent) : Disk := events.foldl step disk

/- Every image a byte may come from after a crash. -/
def versions (disk : Disk) : List Bytes := disk.durable :: disk.pending

/- The image as the writer sees it. -/
def newest (disk : Disk) : Bytes := disk.pending.getLastD disk.durable

@[simp] theorem versions_clean (image : Bytes) : (clean image).versions = [image] := rfl

-- Torn Images

/- An image a crash may leave in the bytes at `positions`; elsewhere it is arbitrary. -/
def Torn (disk : Disk) (positions : Nat → Prop) (image : Bytes) : Prop :=
  ∀ i, positions i → ∃ version ∈ disk.versions, image[i]? = version[i]?

/- What a crash may leave of a whole file: any byte of any version, and the length of one. -/
structure Crashes (disk : Disk) (image : Bytes) : Prop where
  torn : disk.Torn (fun _ => True) image
  length : ∃ version ∈ disk.versions, image.length = version.length

variable {disk : Disk} {positions : Nat → Prop} {image : Bytes}

theorem newest_mem_versions (disk : Disk) : disk.newest ∈ disk.versions := List.getLastD_mem_cons

theorem versions_write (disk : Disk) (image : Bytes) :
    (disk.step (.write image)).versions = disk.versions ++ [image] := rfl

theorem step_write_flush (disk : Disk) (image : Bytes) :
    (disk.step (.write image)).step .flush = clean image := by
  simp [step]

theorem versions_flush (disk : Disk) : (disk.step .flush).versions = [disk.newest] := rfl

/- A byte on which all versions agree is not torn. -/
theorem Torn.getElem?_eq
    (hTorn : disk.Torn positions image) {i : Nat} (hPosition : positions i) {byte : Option UInt8}
    (hAgree : ∀ version ∈ disk.versions, version[i]? = byte) :
    image[i]? = byte := by
  rcases hTorn i hPosition with ⟨version, hMem, hEq⟩
  rw [hEq, hAgree version hMem]

/- A range on which all versions agree is not torn. -/
theorem Torn.slice_eq (hTorn : disk.Torn positions image) {start len : Nat}
    (hPositions : ∀ i < len, positions (start + i)) {data : Bytes}
    (hAgree : ∀ version ∈ disk.versions, version.slice start len = data) :
    image.slice start len = data := by
  rw [← hAgree disk.durable List.mem_cons_self]
  refine Bytes.slice_congr fun i hi => ?_
  apply hTorn.getElem?_eq (hPositions i hi)
  intro version hMem
  have hSame : version.slice start len = disk.durable.slice start len := by
    rw [hAgree version hMem, hAgree disk.durable List.mem_cons_self]
  have hByte := congrArg (fun range => range[i]?) hSame
  simpa [Bytes.getElem?_slice, hi] using hByte

end Disk
