import StorageEngine.Common
import StorageEngine.Lib.Splice

/-! The calls of `uring_executor.cc` as the database sees them: what the kernel answers, the status
that the awaiters make of the answer, and what happens to the bytes of the file. -/

namespace StorageEngine.Io

/-- How a single operation ends: it is not submitted, or it completes with an `int32_t` result,
which is negative for an error. -/
inductive Completion where
  | submitFailed
  | done (result : Int32)
  deriving DecidableEq

inductive LinkedCompletion where
  | submitFailed
  | done (write sync : Int32)
  deriving DecidableEq

def resultMessage (host : Host) (operation : String) (result : Int32) : String :=
  operation ++ ": " ++ host.strerror (-result.toInt)

/-- `SingleOperationAwaiter::await_resume`. -/
def singleOperation (host : Host) (submitError operationError : String) :
    Completion → Result Int32
  | .submitFailed => .error (.ioError submitError)
  | .done result =>
    if result.toInt < 0 then .error (.ioError (resultMessage host operationError result))
    else .ok result

def readAt (host : Host) (completion : Completion) : Result Nat :=
  (singleOperation host "io_uring readv submit failed" "io_uring readv failed" completion).map
    fun result => result.toInt.toNat

def fDataSync (host : Host) (completion : Completion) : Status :=
  match singleOperation host "io_uring fdatasync submit failed" "io_uring fdatasync failed"
    completion with
  | .error status => status
  | .ok _ => .Ok

def writevAndFDataSync (host : Host) (completion : LinkedCompletion) (expectedBytes : Nat) :
    Status :=
  match completion with
  | .submitFailed => .ioError "io_uring linked writev+fdatasync submit failed"
  | .done write sync =>
    if write.toInt < 0 then .ioError (resultMessage host "io_uring writev failed" write)
    else if write.toInt.toNat ≠ expectedBytes then .ioError "io_uring writev completed short"
    else if sync.toInt < 0 then .ioError (resultMessage host "io_uring fdatasync failed" sync)
    else .Ok

/-- The kernel's side of a linked write.  A write that reports an error, or one whose submission
does, may still have stored some bytes. -/
structure WriteIo where
  completion : LinkedCompletion
  stray : Nat := 0
  deriving DecidableEq

/-- How many bytes reach the file: a result that is not negative counts them. -/
def WriteIo.written (io : WriteIo) : Nat :=
  match io.completion with
  | .submitFailed => io.stray
  | .done write _ => if write.toInt < 0 then io.stray else write.toInt.toNat

/-- Whether the kernel reports that the sync succeeded. -/
def WriteIo.synced (io : WriteIo) : Bool :=
  match io.completion with
  | .submitFailed => false
  | .done _ sync => 0 ≤ sync.toInt

def WriteIo.success (size : Nat) : WriteIo where
  completion := .done (Int32.ofNat size) 0

/-- `std::vector::resize` and `ftruncate`: new bytes are zero. -/
def resize (bytes : Bytes) (size : Nat) : Bytes :=
  bytes.take size ++ List.replicate (size - bytes.length) 0#8

/-- The file after a write at `offset`: a gap before it is filled with zeros. -/
def writeAt (file : Bytes) (offset : Nat) (bytes : Bytes) : Bytes :=
  splice (file ++ List.replicate (offset - file.length) 0#8) offset bytes

/-- The buffer after `readv` has filled its first `read` bytes from the front of the file. -/
def readInto (file buffer : Bytes) (read : Nat) : Bytes := splice buffer 0 (file.take read)

/-! ### The calls in closed form -/

/-- Both operations report success exactly when all bytes were counted and the sync did not fail;
the count is an `int32_t`. -/
theorem writevAndFDataSync_ok {host : Host} {io : WriteIo} {expectedBytes : Nat}
    (h : (writevAndFDataSync host io.completion expectedBytes).ok = true) :
    writevAndFDataSync host io.completion expectedBytes = .Ok ∧ io.written = expectedBytes ∧
      expectedBytes < 2 ^ 31 ∧ io.synced = true := by
  obtain ⟨completion, stray⟩ := io
  cases completion with
  | submitFailed => simp [writevAndFDataSync] at h
  | done write sync =>
    simp only [writevAndFDataSync, WriteIo.written, WriteIo.synced] at h ⊢
    split at h
    · simp at h
    split at h
    · simp at h
    split at h
    · simp at h
    next hwrite hcount hsync =>
    have hbound := write.toInt_lt
    rw [if_neg hwrite, if_neg hcount, if_neg hsync, if_neg hwrite]
    exact ⟨rfl, not_not.mp hcount, by omega, decide_eq_true (Int.not_lt.mp hsync)⟩

theorem writevAndFDataSync_done_iff (host : Host) (write sync : Int32) (expectedBytes : Nat) :
    writevAndFDataSync host (.done write sync) expectedBytes = .Ok ↔
      write.toInt = expectedBytes ∧ 0 ≤ sync.toInt := by
  have hne : ∀ message, Status.ioError message ≠ .Ok := by simp [Status.ioError, Status.Ok]
  unfold writevAndFDataSync
  simp only
  split
  · simp only [hne, false_iff]
    omega
  split
  · simp only [hne, false_iff]
    omega
  split
  · simp only [hne, false_iff]
    omega
  · simp only [true_iff]
    omega

theorem readAt_of_nonneg (host : Host) {result : Int32} (h : 0 ≤ result.toInt) :
    readAt host (.done result) = .ok result.toInt.toNat := by
  rw [readAt, singleOperation, if_neg (Int.not_lt.mpr h)]
  rfl

theorem resize_of_le {bytes : Bytes} {size : Nat} (h : size ≤ bytes.length) :
    resize bytes size = bytes.take size := by
  rw [resize, Nat.sub_eq_zero_of_le h, List.replicate_zero, List.append_nil]

theorem writeAt_of_le {file bytes : Bytes} {offset : Nat} (h : offset ≤ file.length) :
    writeAt file offset bytes = splice file offset bytes := by
  rw [writeAt, Nat.sub_eq_zero_of_le h, List.replicate_zero, List.append_nil]

theorem resize_readInto {file : Bytes} {read : Nat} (h : read ≤ file.length) :
    resize (readInto file (List.replicate file.length 0#8) read) read = file.take read := by
  have hlen : (file.take read).length = read := by rw [List.length_take, Nat.min_eq_left h]
  rw [resize_of_le (by rw [readInto, length_splice (by simp [hlen, h])]; simpa using h), readInto,
    splice, List.take_zero, List.nil_append, List.take_left' hlen]

end StorageEngine.Io
