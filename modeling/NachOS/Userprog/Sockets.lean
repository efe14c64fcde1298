import NachOS.Userprog.OpenFilesTable

/-!
# Sockets

The system calls `Open`, `Close`, `Socket` and `Connect` of `exception.cc`, as far as they
concern the handles. Every address space has its table of open files; `machineSockets`, which
remembers the sockets of the IPv6 family, is one for all of them.

`Socket` enters the Nachos handle in `machineSockets`, and nothing takes it out again. `Connect`
looks there for the Unix handle, and gives the Nachos handle to the host. So the two agree only
as long as the numbers of the two kinds of handles happen to agree.
-/

namespace NachOS

open PartialRun

/-- `AF_INET` and `AF_INET6`. -/
inductive Family where
  | inet
  | inet6
deriving DecidableEq, Repr

/-- `SOCK_STREAM` and `SOCK_DGRAM`. -/
inductive SocketType where
  | stream
  | dgram
deriving DecidableEq, Repr

/-- `AF_INET_NachOS`. -/
def afInetNachOS : ℤ := 0

/-- `SOCK_STREAM_NachOS`. -/
def sockStreamNachOS : ℤ := 0

/-- A call of the host's `connect`: the descriptor and the fields of the address. -/
structure HostConnect where
  fd : ℤ
  family : Family
  ip : String
  /-- The argument of `htons`. -/
  port : ℕ
deriving DecidableEq, Repr

/-- What the system calls work on. -/
structure Sockets where
  /-- The table of each address space. -/
  openFilesTable : ℕ → NachosOpenFilesTable
  /-- The keys of `machineSockets`. -/
  machineSockets : List ℤ
  /-- The family given to the `Socket` that has returned the handle, if it was not closed
  since. No system call reads it. -/
  family : ℕ → ℕ → Option Family

namespace Sockets

/-- No system call has been made. -/
def new : Sockets where
  openFilesTable := fun _ => .new
  machineSockets := []
  family := fun _ _ => none

variable (s : Sockets)

/-- The family of a handle of address space `p` is recorded. The number `-1` is no handle. -/
def record (p : ℕ) (handle : ℤ) (family : Option Family) : Sockets :=
  if handle < 0 then s
  else { s with
    family := Function.update s.family p (Function.update (s.family p) handle.toNat family) }

def setTable (p : ℕ) (table : NachosOpenFilesTable) : Sockets :=
  { s with openFilesTable := Function.update s.openFilesTable p table }

/-- `NachOS_Open` from the answer of the host's `open` on: what is in register 2 after it. -/
def nachosOpen (p : ℕ) (fdOpenFile : ℤ) : Except Fault (ℤ × Sockets) :=
  if fdOpenFile = -1 then .ok (-1, s)
  else do
    let (isOpened, table) ← (s.openFilesTable p).openHandle fdOpenFile
    return (isOpened, (s.setTable p table).record p isOpened none)

/-- `NachOS_Close`, where the host's `close` answers `result`. -/
def nachosClose (p : ℕ) (fileId result : ℤ) : Except Fault (ℤ × Sockets) := do
  let (unixHandle, table) ← (s.openFilesTable p).close fileId
  let s := (s.setTable p table).record p fileId none
  if unixHandle = -1 then return (-1, s)
  else return (if result = 0 then result + 1 else result, s)

/-- The family of the host for the family in register 4. -/
def hostFamily (family : ℤ) : Family := if family = afInetNachOS then .inet else .inet6

/-- The type of the host for the type in register 5. -/
def hostType (type : ℤ) : SocketType := if type = sockStreamNachOS then .stream else .dgram

/-- `NachOS_Socket`, where the host's `socket` answers as `socket` does. -/
def nachosSocket (p : ℕ) (family type : ℤ) (socket : Family → SocketType → ℤ) :
    Except Fault (ℤ × Sockets) := do
  let idSocket := socket (hostFamily family) (hostType type)
  let (fd, table) ← (s.openFilesTable p).openHandle idSocket
  let s := (s.setTable p table).record p fd (some (hostFamily family))
  return (fd, if hostFamily family = .inet6
    then { s with machineSockets := fd :: s.machineSockets } else s)

/-- `NachOS_Connect`: the call of the host's `connect`. -/
def nachosConnect (p : ℕ) (sockID : ℤ) (ip : String) (port : ℤ) : Except Fault HostConnect := do
  let fd ← (s.openFilesTable p).getUnixHandle sockID
  return { fd := sockID
           family := if fd ∈ s.machineSockets then .inet6 else .inet
           ip := ip
           port := (port % 2 ^ 16).toNat }

/-- A system call of a thread of some address space, with the answer of the host. -/
inductive Call where
  | openFile (p : ℕ) (fdOpenFile : ℤ)
  | close (p : ℕ) (fileId result : ℤ)
  | socket (p : ℕ) (family type : ℤ) (socket : Family → SocketType → ℤ)
  | connect (p : ℕ) (sockID : ℤ) (ip : String) (port : ℤ)

/-- The state after a system call. -/
def step : Call → Except Fault Sockets
  | .openFile p fdOpenFile => do
    let (_, s) ← s.nachosOpen p fdOpenFile
    return s
  | .close p fileId result => do
    let (_, s) ← s.nachosClose p fileId result
    return s
  | .socket p family type socket => do
    let (_, s) ← s.nachosSocket p family type socket
    return s
  | .connect p sockID ip port => do
    let _ ← s.nachosConnect p sockID ip port
    return s

end Sockets

/-! ## What `Open` and `Close` do to a table -/

namespace NachosOpenFilesTable

variable {t t' : NachosOpenFilesTable}

/-- Reading an entry of the table stays inside it. -/
theorem get_ok {i : ℕ} {v : ℤ} (h : t.get i = .ok v) : i < tableSize ∧ t.openFiles i = some v := by
  unfold get at h
  split at h
  · rename_i hi
    split at h
    · rename_i heq
      cases h
      exact ⟨hi, heq⟩
    · cases h
  · cases h

theorem test_ok {i : ℕ} {b : Bool} (h : t.openFilesMap.test i = .ok b) :
    t.openFilesMap.marked i = b := by
  unfold BitMap.test at h
  split at h
  · exact Except.ok.inj h
  · cases h

/-- The loop of `Open` ends with `0` or with an open handle that stands for the Unix handle. -/
theorem findHandle_ok {u : ℤ} {is : List ℕ} {n : ℕ} (h : t.findHandle u is = .ok n) :
    n = 0 ∨ (n < tableSize ∧ t.openFilesMap.marked n = true ∧ t.openFiles n = some u) := by
  induction is with
  | nil => exact .inl (Except.ok.inj h).symm
  | cons i is ih =>
    obtain ⟨opened, htest, h⟩ := bind_ok_iff.mp h
    cases opened with
    | false => exact ih h
    | true =>
      obtain ⟨v, hget, h⟩ := bind_ok_iff.mp h
      by_cases hv : v = u
      · rw [if_pos hv] at h
        obtain rfl := pure_ok_iff.mp h
        obtain ⟨hi, hopen⟩ := get_ok hget
        exact .inr ⟨hi, test_ok htest, by rw [hopen, hv]⟩
      · rw [if_neg hv] at h
        exact ih h

/-- `Open` returns a handle that is open then and stands for the Unix handle, or `-1` from a
full table. -/
theorem openHandle_ok {u handle : ℤ} (h : t.openHandle u = .ok (handle, t')) :
    (handle = -1 ∧ t' = t) ∨ ∃ n < tableSize, handle = n ∧
      t'.openFiles = Function.update t.openFiles n (some u) ∧
      t'.openFilesMap.marked = Function.update t.openFilesMap.marked n true := by
  obtain ⟨n, hfind, h⟩ := bind_ok_iff.mp h
  by_cases hn : n ≠ 0
  · rw [if_pos hn] at h
    cases pure_ok_iff.mp h
    rcases findHandle_ok hfind with hzero | ⟨hlt, hmarked, hopen⟩
    · exact absurd hzero hn
    · refine .inr ⟨n, hlt, rfl, ?_, ?_⟩
      · rw [← hopen, Function.update_eq_self]
      · rw [← hmarked, Function.update_eq_self]
  · rw [if_neg hn, BitMap.find] at h
    cases hclear : t.openFilesMap.firstClear with
    | none =>
      rw [hclear] at h
      cases pure_ok_iff.mp h
      exact .inl ⟨rfl, rfl⟩
    | some n =>
      rw [hclear] at h
      obtain ⟨t₁, hset, h⟩ := bind_ok_iff.mp h
      cases pure_ok_iff.mp h
      unfold set at hset
      split at hset
      · rename_i hlt
        cases hset
        exact .inr ⟨n, hlt, rfl, rfl, rfl⟩
      · cases hset

/-- `Close` frees a handle that is open, and does nothing otherwise. -/
theorem close_ok {handle u : ℤ} (h : t.close handle = .ok (u, t')) :
    (t' = t ∧ ∀ n : ℕ, handle = n → t.openFilesMap.marked n = true → tableSize < n) ∨
    ∃ n < tableSize, handle = n ∧
      t'.openFiles = Function.update t.openFiles n (some (-1)) ∧
      t'.openFilesMap.marked = Function.update t.openFilesMap.marked n false := by
  obtain ⟨opened, hopened, h⟩ := bind_ok_iff.mp h
  by_cases hbad : opened = false ∨ handle < 0 ∨ handle > tableSize
  · rw [if_pos hbad] at h
    cases pure_ok_iff.mp h
    refine .inl ⟨rfl, fun n hn hmarked => ?_⟩
    subst hn
    by_contra hle
    unfold isOpened at hopened
    rw [if_neg (by omega)] at hopened
    have htest := test_ok hopened
    rw [Int.toNat_natCast, hmarked] at htest
    rcases hbad with hbad | hbad
    · rw [← htest] at hbad
      cases hbad
    · omega
  · rw [if_neg hbad] at h
    push Not at hbad
    obtain ⟨v, hget, h⟩ := bind_ok_iff.mp h
    obtain ⟨hlt, -⟩ := get_ok hget
    obtain ⟨map, hclear, h⟩ := bind_ok_iff.mp h
    obtain ⟨t₁, hset, h⟩ := bind_ok_iff.mp h
    cases pure_ok_iff.mp h
    refine .inr ⟨handle.toNat, hlt, by omega, ?_⟩
    unfold set at hset
    rw [if_pos hlt] at hset
    unfold BitMap.clear at hclear
    split at hclear
    · cases hclear
      cases hset
      exact ⟨rfl, rfl⟩
    · cases hclear

end NachosOpenFilesTable

namespace Sockets

/-! ## What a system call changes -/

/-- The entry of handle `n` of address space `p` is another now, and no other one. -/
structure Changed (s s' : Sockets) (p n : ℕ) (v : ℤ) (opened : Bool) (f : Option Family) :
    Prop where
  bound : n < tableSize
  openFiles : ∀ q i, (s'.openFilesTable q).openFiles i =
    if q = p ∧ i = n then some v else (s.openFilesTable q).openFiles i
  marked : ∀ q i, (s'.openFilesTable q).openFilesMap.marked i =
    if q = p ∧ i = n then opened else (s.openFilesTable q).openFilesMap.marked i
  family : ∀ q i, s'.family q i = if q = p ∧ i = n then f else s.family q i

theorem update_update {α β : Type} (f : ℕ → α) (g : α → ℕ → β) (p n : ℕ) {a : α} {b : β}
    (ha : g a = Function.update (g (f p)) n b) (q i : ℕ) :
    g (Function.update f p a q) i = if q = p ∧ i = n then b else g (f q) i := by
  by_cases hq : q = p
  · rw [hq, Function.update_self, ha]
    by_cases hi : i = n
    · rw [hi, Function.update_self, if_pos ⟨rfl, rfl⟩]
    · rw [Function.update_of_ne hi, if_neg fun h => hi h.2]
  · rw [Function.update_of_ne hq, if_neg fun h => hq h.1]

/-- Writing an entry and recording its family is one change at that entry. -/
theorem changed_record {s : Sockets} {p n : ℕ} {v : ℤ} {opened : Bool} {f : Option Family}
    {t : NachosOpenFilesTable} (hn : n < tableSize)
    (hopen : t.openFiles = Function.update (s.openFilesTable p).openFiles n (some v))
    (hmarked : t.openFilesMap.marked =
      Function.update (s.openFilesTable p).openFilesMap.marked n opened) :
    Changed s ((s.setTable p t).record p n f) p n v opened f := by
  have hpos : ¬ (n : ℤ) < 0 := by omega
  rw [record, if_neg hpos]
  refine ⟨hn, ?_, ?_, ?_⟩
  · exact update_update s.openFilesTable (fun t => t.openFiles) p n hopen
  · exact update_update s.openFilesTable (fun t => t.openFilesMap.marked) p n hmarked
  · exact update_update s.family id p n rfl

/-- What is always true: a recorded handle is open, and if it is one of an IPv6 socket, it is in
`machineSockets`. -/
def Recorded (s : Sockets) : Prop :=
  ∀ p n f, s.family p n = some f → n < tableSize ∧
    (s.openFilesTable p).openFilesMap.marked n = true ∧
    (∃ v, (s.openFilesTable p).openFiles n = some v) ∧ (f = .inet6 → (n : ℤ) ∈ s.machineSockets)

/-- The record stays right at the entry that changed, and everywhere else. -/
theorem Recorded.changed {s s' : Sockets} {p n : ℕ} {v : ℤ} {opened : Bool} {f : Option Family}
    (h : Recorded s) (hchanged : Changed s s' p n v opened f)
    (hopened : ∀ g, f = some g → opened = true ∧ (g = .inet6 → (n : ℤ) ∈ s'.machineSockets))
    (hsockets : ∀ i ∈ s.machineSockets, i ∈ s'.machineSockets) : Recorded s' := by
  intro q i g hg
  rw [hchanged.family] at hg
  rw [hchanged.marked, hchanged.openFiles]
  by_cases hqi : q = p ∧ i = n
  · rw [if_pos hqi] at hg ⊢
    rw [if_pos hqi, hqi.2]
    exact ⟨hchanged.bound, (hopened g hg).1, ⟨v, rfl⟩, (hopened g hg).2⟩
  · rw [if_neg hqi] at hg ⊢
    rw [if_neg hqi]
    obtain ⟨hlt, hmarked, hopen, hmem⟩ := h q i g hg
    exact ⟨hlt, hmarked, hopen, fun h6 => hsockets _ (hmem h6)⟩

section

variable {s s' : Sockets}

/-- Nothing the statements are about is another now. -/
structure Same (s s' : Sockets) : Prop where
  openFilesTable : s'.openFilesTable = s.openFilesTable
  family : s'.family = s.family
  mem : ∀ n : ℕ, (n : ℤ) ∈ s'.machineSockets ↔ (n : ℤ) ∈ s.machineSockets

/-- It depends on the tables and the families only. -/
theorem Recorded.same (h : Recorded s) (hsame : Same s s') : Recorded s' := by
  intro p n f hf
  rw [hsame.family] at hf
  rw [hsame.openFilesTable, hsame.mem]
  exact h p n f hf

theorem setTable_self (s : Sockets) (p : ℕ) : s.setTable p (s.openFilesTable p) = s := by
  unfold setTable
  rw [Function.update_eq_self]

theorem record_neg (s : Sockets) (p : ℕ) (f : Option Family) : s.record p (-1) f = s :=
  if_pos (by decide)

/-- The handle that `Open` of the table gives for a Unix handle, if it gives one. -/
def Gives (s : Sockets) (p : ℕ) (u : ℤ) (n : ℕ) : Prop :=
  ∃ t, (s.openFilesTable p).openHandle u = .ok ((n : ℤ), t)

/-- The table gives one handle for a Unix handle. -/
theorem Gives.unique {p n n' : ℕ} {u : ℤ} (h : s.Gives p u n) (h' : s.Gives p u n') : n' = n := by
  obtain ⟨t, ht⟩ := h
  obtain ⟨t', ht'⟩ := h'
  rw [ht, Except.ok.injEq, Prod.mk.injEq] at ht'
  exact_mod_cast ht'.1.symm

/-- A table that is full gives no handle. -/
theorem Gives.ne_neg {p n : ℕ} {u : ℤ} {t : NachosOpenFilesTable} (h : s.Gives p u n)
    (hfull : (s.openFilesTable p).openHandle u = .ok (-1, t)) : False := by
  obtain ⟨t', ht'⟩ := h
  rw [hfull, Except.ok.injEq, Prod.mk.injEq] at ht'
  omega

/-- `Open` leaves the state alone or gives a handle to the file. -/
theorem openFile_ok {p : ℕ} {fd : ℤ} (h : s.step (.openFile p fd) = .ok s') :
    (s' = s ∧ (fd ≠ -1 → ∀ n, ¬ s.Gives p fd n)) ∨ ∃ n, fd ≠ -1 ∧ s.Gives p fd n ∧
      Changed s s' p n fd true none ∧ s'.machineSockets = s.machineSockets := by
  obtain ⟨⟨handle, s₁⟩, hopen, h⟩ := bind_ok_iff.mp h
  cases pure_ok_iff.mp h
  unfold nachosOpen at hopen
  split at hopen
  · rename_i hfd
    cases hopen
    exact .inl ⟨rfl, fun hne => absurd hfd hne⟩
  · rename_i hfd
    obtain ⟨⟨isOpened, t⟩, htable, h⟩ := bind_ok_iff.mp hopen
    cases pure_ok_iff.mp h
    rcases NachosOpenFilesTable.openHandle_ok htable with
      ⟨rfl, rfl⟩ | ⟨n, hn, rfl, hfiles, hmarked⟩
    · rw [setTable_self, record_neg]
      exact .inl ⟨rfl, fun _ n hgives => hgives.ne_neg htable⟩
    · refine .inr ⟨n, hfd, ⟨t, htable⟩, changed_record hn hfiles hmarked, ?_⟩
      rw [record, if_neg (by omega)]
      rfl

/-- `Close` empties the entry, or finds none and changes nothing. -/
theorem close_changed (hrec : Recorded s) {p : ℕ} {fileId result : ℤ}
    (h : s.step (.close p fileId result) = .ok s') :
    Same s s' ∨ ∃ n, Changed s s' p n (-1) false none ∧
      s'.machineSockets = s.machineSockets := by
  obtain ⟨⟨r2, s₁⟩, hclose, h⟩ := bind_ok_iff.mp h
  cases pure_ok_iff.mp h
  obtain ⟨⟨u, t⟩, htable, h⟩ := bind_ok_iff.mp hclose
  have hs' : s' = (s.setTable p t).record p fileId none := by
    dsimp only at h
    split at h <;> cases pure_ok_iff.mp h <;> rfl
  subst hs'
  rcases NachosOpenFilesTable.close_ok htable with ⟨rfl, hnot⟩ | ⟨n, hn, rfl, hfiles, hmarked⟩
  · refine .inl ?_
    rw [setTable_self, record]
    split
    · exact ⟨rfl, rfl, fun _ => Iff.rfl⟩
    · refine ⟨rfl, ?_, fun _ => Iff.rfl⟩
      -- a handle that is not open has no family
      have hnone : s.family p fileId.toNat = none := by
        cases hf : s.family p fileId.toNat with
        | none => rfl
        | some f =>
          obtain ⟨hlt, hmarked, -⟩ := hrec p _ f hf
          have := hnot fileId.toNat (by omega) hmarked
          omega
      show Function.update s.family p (Function.update (s.family p) fileId.toNat none) = s.family
      rw [← hnone, Function.update_eq_self, Function.update_eq_self]
  · refine .inr ⟨n, changed_record hn hfiles hmarked, ?_⟩
    rw [record, if_neg (by omega)]
    rfl

/-- `Socket` gives a handle to the socket, unless the table is full. -/
theorem socket_ok {p : ℕ} {family type : ℤ} {socket : Family → SocketType → ℤ}
    (h : s.step (.socket p family type socket) = .ok s') :
    (Same s s' ∧ ∀ n, ¬ s.Gives p (socket (hostFamily family) (hostType type)) n) ∨
    ∃ n, s.Gives p (socket (hostFamily family) (hostType type)) n ∧
      Changed s s' p n (socket (hostFamily family) (hostType type)) true
        (some (hostFamily family)) ∧
      s'.machineSockets = if hostFamily family = .inet6 then (n : ℤ) :: s.machineSockets
        else s.machineSockets := by
  obtain ⟨⟨handle, s₁⟩, hsocket, h⟩ := bind_ok_iff.mp h
  cases pure_ok_iff.mp h
  obtain ⟨⟨fd, t⟩, hopen, h⟩ := bind_ok_iff.mp hsocket
  cases pure_ok_iff.mp h
  rcases NachosOpenFilesTable.openHandle_ok hopen with ⟨rfl, rfl⟩ | ⟨n, hn, rfl, hfiles, hmarked⟩
  · refine .inl ⟨?_, fun n hgives => hgives.ne_neg hopen⟩
    rw [setTable_self, record_neg]
    split
    · refine ⟨rfl, rfl, fun n => ?_⟩
      have hne : (n : ℤ) ≠ -1 := by omega
      simp [hne]
    · exact ⟨rfl, rfl, fun _ => Iff.rfl⟩
  · refine .inr ⟨n, ⟨t, hopen⟩, ?_⟩
    have hchanged := changed_record (s := s) (f := some (hostFamily family)) hn hfiles hmarked
    have hsockets : ((s.setTable p t).record p n (some (hostFamily family))).machineSockets =
        s.machineSockets := by
      rw [record, if_neg (by omega)]
      rfl
    split
    · exact ⟨⟨hn, hchanged.openFiles, hchanged.marked, hchanged.family⟩, by rw [hsockets]⟩
    · exact ⟨hchanged, hsockets⟩

/-- `Connect` changes no table. -/
theorem connect_ok {p : ℕ} {sockID : ℤ} {ip : String} {port : ℤ}
    (h : s.step (.connect p sockID ip port) = .ok s') : s' = s := by
  obtain ⟨c, -, h⟩ := bind_ok_iff.mp h
  exact (pure_ok_iff.mp h).symm

/-- The step lemma: the record tells which sockets are open and of which family. -/
theorem step_recorded {c : Call} (hrec : Recorded s) (h : s.step c = .ok s') : Recorded s' := by
  cases c with
  | openFile p fd =>
    rcases openFile_ok h with ⟨rfl, -⟩ | ⟨n, -, -, hchanged, hsockets⟩
    · exact hrec
    · refine hrec.changed hchanged (fun g hg => by cases hg) fun i hi => ?_
      rw [hsockets]
      exact hi
  | close p fileId result =>
    rcases close_changed hrec h with hsame | ⟨n, hchanged, hsockets⟩
    · exact hrec.same hsame
    · refine hrec.changed hchanged (fun g hg => by cases hg) fun i hi => ?_
      rw [hsockets]
      exact hi
  | socket p family type socket =>
    rcases socket_ok h with ⟨hsame, -⟩ | ⟨n, -, hchanged, hsockets⟩
    · exact hrec.same hsame
    · refine hrec.changed hchanged (fun g hg => ?_) fun i hi => ?_
      · rw [Option.some.injEq] at hg
        refine ⟨rfl, fun h6 => ?_⟩
        rw [hsockets, if_pos (hg.trans h6)]
        exact List.mem_cons_self
      · rw [hsockets]
        split
        · exact List.mem_cons_of_mem _ hi
        · exact hi
  | connect p sockID ip port =>
    rw [connect_ok h]
    exact hrec

end

/-! ## `Socket` and `Connect` -/

/-- `Connect` on a handle that `Socket` has returned, and that was not closed since, connects
the Unix socket of the handle, with the family given to that `Socket`. An open handle that is
not one of a socket has no family. -/
structure Agrees (s : Sockets) : Prop where
  connects : ∀ p n f, s.family p n = some f → ∀ ip port, ∃ u,
    (s.openFilesTable p).getUnixHandle n = .ok u ∧
    s.nachosConnect p n ip port = .ok ⟨u, f, ip, (port % 2 ^ 16).toNat⟩
  files : ∀ p n, (s.openFilesTable p).openFilesMap.marked n = true → s.family p n = none →
    (n : ℤ) ∉ s.machineSockets

/-- The same for one handle, in terms of the tables. -/
def Tidy (s : Sockets) (p n : ℕ) : Prop :=
  match s.family p n with
  | some f => (s.openFilesTable p).openFiles n = some (n : ℤ) ∧
      ((n : ℤ) ∈ s.machineSockets ↔ f = .inet6)
  | none => (n : ℤ) ∉ s.machineSockets

/-- All open handles of `s` are as they should be. -/
def AllTidy (s : Sockets) : Prop :=
  ∀ p n, (s.openFilesTable p).openFilesMap.marked n = true → Tidy s p n

section

variable {s s' : Sockets}

/-- A handle of no socket is not in the machine's list of IPv6 sockets. -/
theorem tidy_of_none {p n : ℕ} (h : s.family p n = none) :
    Tidy s p n ↔ (n : ℤ) ∉ s.machineSockets := by
  rw [Tidy, h]

/-- The handle of a socket is the descriptor itself, and the list has it if it is an IPv6 one. -/
theorem tidy_of_some {p n : ℕ} {f : Family} (h : s.family p n = some f) :
    Tidy s p n ↔ (s.openFilesTable p).openFiles n = some (n : ℤ) ∧
      ((n : ℤ) ∈ s.machineSockets ↔ f = .inet6) := by
  rw [Tidy, h]

theorem family_eq_iff {b : Prop} [Decidable b] {f : Family} :
    (if b then Family.inet6 else .inet) = f ↔ (b ↔ f = .inet6) := by
  by_cases hb : b <;> cases f <;> simp [hb]

/-- The tables agree with the machine exactly if every entry does. -/
theorem agrees_iff_tidy (hrec : Recorded s) : Agrees s ↔ AllTidy s := by
  have hconnect : ∀ p n f, s.family p n = some f → ((∀ ip port, ∃ u,
      (s.openFilesTable p).getUnixHandle n = .ok u ∧
      s.nachosConnect p n ip port = .ok ⟨u, f, ip, (port % 2 ^ 16).toNat⟩) ↔ Tidy s p n) := by
    intro p n f hf
    obtain ⟨hlt, -, ⟨v, hv⟩, -⟩ := hrec p n f hf
    have hget : (s.openFilesTable p).getUnixHandle n = .ok v := by
      unfold NachosOpenFilesTable.getUnixHandle
      rw [if_neg (by omega), Int.toNat_natCast, NachosOpenFilesTable.get, if_pos hlt, hv]
    have hcall : ∀ ip port, s.nachosConnect p n ip port =
        .ok ⟨n, if v ∈ s.machineSockets then .inet6 else .inet, ip, (port % 2 ^ 16).toNat⟩ := by
      intro ip port
      rw [nachosConnect, hget, ok_bind]
      rfl
    rw [tidy_of_some hf, hv, Option.some.injEq]
    constructor
    · intro h
      obtain ⟨u, hu, hc⟩ := h "" 0
      rw [hget, Except.ok.injEq] at hu
      rw [hcall, Except.ok.injEq, HostConnect.mk.injEq, family_eq_iff] at hc
      obtain rfl : v = n := hu.trans hc.1.symm
      exact ⟨rfl, hc.2.1⟩
    · rintro ⟨rfl, hfamily⟩ ip port
      refine ⟨n, hget, ?_⟩
      rw [hcall, family_eq_iff.mpr hfamily]
  constructor
  · intro h p n hmarked
    cases hf : s.family p n with
    | none => exact (tidy_of_none hf).mpr (h.files p n hmarked hf)
    | some f => exact (hconnect p n f hf).mp (h.connects p n f hf)
  · intro h
    refine ⟨fun p n f hf => ?_, fun p n hmarked hf => (tidy_of_none hf).mp (h p n hmarked)⟩
    exact (hconnect p n f hf).mpr (h p n (hrec p n f hf).2.1)

/-- A handle whose entry is as it was. -/
theorem Changed.tidy_iff {p n q i : ℕ} {v : ℤ} {opened : Bool} {f : Option Family}
    (h : Changed s s' p n v opened f) (hqi : ¬ (q = p ∧ i = n))
    (hmem : (i : ℤ) ∈ s'.machineSockets ↔ (i : ℤ) ∈ s.machineSockets) :
    Tidy s' q i ↔ Tidy s q i := by
  have hfamily : s'.family q i = s.family q i := by rw [h.family, if_neg hqi]
  have hopen : (s'.openFilesTable q).openFiles i = (s.openFilesTable q).openFiles i := by
    rw [h.openFiles, if_neg hqi]
  unfold Tidy
  rw [hfamily, hopen, hmem]

/-- The system calls that go well. A file gets a handle that no IPv6 socket has had. A socket
gets the handle with the number of its Unix handle; for an IPv4 socket, no IPv6 socket has had
it, and for an IPv6 socket, no other address space has it open but for an IPv6 socket. -/
def Apt (s : Sockets) : Call → Prop
  | .openFile p fd => fd ≠ -1 → ∀ n, s.Gives p fd n → (n : ℤ) ∉ s.machineSockets
  | .close _ _ _ => True
  | .socket p family type socket =>
    let idSocket := socket (hostFamily family) (hostType type)
    ∀ n, s.Gives p idSocket n → idSocket = n ∧
      (hostFamily family = .inet → (n : ℤ) ∉ s.machineSockets) ∧
      (hostFamily family = .inet6 → ∀ q, q ≠ p →
        (s.openFilesTable q).openFilesMap.marked n = true → s.family q n = some .inet6)
  | .connect _ _ _ _ => True

theorem AllTidy.same (h : AllTidy s) (hsame : Same s s') : AllTidy s' := by
  intro p n hmarked
  rw [hsame.openFilesTable] at hmarked
  have htidy := h p n hmarked
  unfold Tidy at htidy ⊢
  rw [hsame.family, hsame.openFilesTable, hsame.mem]
  exact htidy

/-- The other handles stay tidy, so it depends on the one that has changed. -/
theorem AllTidy.changed_iff {p n : ℕ} {v : ℤ} {opened : Bool} {f : Option Family}
    (h : AllTidy s) (hchanged : Changed s s' p n v opened f)
    (hmem : ∀ q i, ¬ (q = p ∧ i = n) → (s.openFilesTable q).openFilesMap.marked i = true →
      ((i : ℤ) ∈ s'.machineSockets ↔ (i : ℤ) ∈ s.machineSockets)) :
    AllTidy s' ↔ (opened = true → Tidy s' p n) := by
  constructor
  · intro h' hopened
    refine h' p n ?_
    rw [hchanged.marked, if_pos ⟨rfl, rfl⟩]
    exact hopened
  · intro hnew q i hmarked
    rw [hchanged.marked] at hmarked
    by_cases hqi : q = p ∧ i = n
    · rw [if_pos hqi] at hmarked
      rw [hqi.1, hqi.2]
      exact hnew hmarked
    · rw [if_neg hqi] at hmarked
      exact (hchanged.tidy_iff hqi (hmem q i hqi hmarked)).mpr (h q i hmarked)

/-- Opening a file goes well if the table has room. -/
theorem openFile_exists {p n : ℕ} {fd : ℤ} (hfd : fd ≠ -1) (h : s.Gives p fd n) :
    ∃ s', s.step (.openFile p fd) = .ok s' := by
  obtain ⟨t, ht⟩ := h
  rw [step, nachosOpen, if_neg hfd, ht]
  exact ⟨_, rfl⟩

/-- And so does opening a socket. -/
theorem socket_exists {p n : ℕ} {family type : ℤ} {socket : Family → SocketType → ℤ}
    (h : s.Gives p (socket (hostFamily family) (hostType type)) n) :
    ∃ s', s.step (.socket p family type socket) = .ok s' := by
  obtain ⟨t, ht⟩ := h
  rw [step, nachosSocket]
  dsimp only
  rw [ht]
  exact ⟨_, rfl⟩

/-- `Open` of a file goes well exactly if it is apt. -/
theorem openFile_tidy_iff (htidy : AllTidy s) {p : ℕ} {fd : ℤ} :
    (∀ s', s.step (.openFile p fd) = .ok s' → AllTidy s') ↔ s.Apt (.openFile p fd) := by
  have hnew : ∀ s' n, Changed s s' p n fd true none → s'.machineSockets = s.machineSockets →
      (AllTidy s' ↔ (n : ℤ) ∉ s.machineSockets) := by
    intro s' n hchanged hsockets
    have hfamily : s'.family p n = none := by rw [hchanged.family, if_pos ⟨rfl, rfl⟩]
    rw [htidy.changed_iff hchanged fun q i _ _ => by rw [hsockets], tidy_of_none hfamily, hsockets]
    exact ⟨fun h => h rfl, fun h _ => h⟩
  constructor
  · intro h hfd n hgives
    obtain ⟨s', hst⟩ := openFile_exists hfd hgives
    rcases openFile_ok hst with ⟨-, hnone⟩ | ⟨n', -, hgives', hchanged, hsockets⟩
    · exact absurd hgives (hnone hfd n)
    · rw [hgives.unique hgives'] at hchanged
      exact (hnew s' n hchanged hsockets).mp (h s' hst)
  · intro hapt s' hst
    rcases openFile_ok hst with ⟨rfl, -⟩ | ⟨n, hfd, hgives, hchanged, hsockets⟩
    · exact htidy
    · exact (hnew s' n hchanged hsockets).mpr (hapt hfd n hgives)

/-- The new handle of an IPv4 socket. -/
theorem AllTidy.inet_iff (htidy : AllTidy s) {p n : ℕ} {u : ℤ}
    (hchanged : Changed s s' p n u true (some .inet))
    (hsockets : s'.machineSockets = s.machineSockets) :
    AllTidy s' ↔ u = n ∧ (n : ℤ) ∉ s.machineSockets := by
  have hfamily : s'.family p n = some .inet := by rw [hchanged.family, if_pos ⟨rfl, rfl⟩]
  rw [htidy.changed_iff hchanged fun q i _ _ => by rw [hsockets], tidy_of_some hfamily,
    hchanged.openFiles, if_pos ⟨rfl, rfl⟩, hsockets]
  simp

/-- The new handle of an IPv6 socket, which is looked up for the other address spaces too. -/
theorem AllTidy.inet6_iff (htidy : AllTidy s) {p n : ℕ} {u : ℤ}
    (hchanged : Changed s s' p n u true (some .inet6))
    (hsockets : s'.machineSockets = (n : ℤ) :: s.machineSockets) :
    AllTidy s' ↔ u = n ∧ ∀ q, q ≠ p →
      (s.openFilesTable q).openFilesMap.marked n = true → s.family q n = some .inet6 := by
  have hfamily : s'.family p n = some .inet6 := by rw [hchanged.family, if_pos ⟨rfl, rfl⟩]
  have hself : Tidy s' p n ↔ u = n := by
    rw [tidy_of_some hfamily, hchanged.openFiles, if_pos ⟨rfl, rfl⟩, hsockets]
    simp
  constructor
  · intro h
    refine ⟨hself.mp (h p n (by rw [hchanged.marked, if_pos ⟨rfl, rfl⟩])), fun q hq hmarked => ?_⟩
    have hother : ¬ (q = p ∧ n = n) := fun hqn => hq hqn.1
    have hn := h q n (by rw [hchanged.marked, if_neg hother]; exact hmarked)
    have hsame : s'.family q n = s.family q n := by rw [hchanged.family, if_neg hother]
    have hin : (n : ℤ) ∈ s'.machineSockets := by
      rw [hsockets]
      exact List.mem_cons_self
    cases hf : s.family q n with
    | none => exact absurd hin ((tidy_of_none (hsame.trans hf)).mp hn)
    | some f => rw [((tidy_of_some (hsame.trans hf)).mp hn).2.mp hin]
  · rintro ⟨hun, hothers⟩
    refine (htidy.changed_iff hchanged fun q i hqi hmarked => ?_).mpr fun _ => hself.mpr hun
    rw [hsockets, List.mem_cons]
    by_cases hi : i = n
    · subst hi
      have hf := hothers q (fun hq => hqi ⟨hq, rfl⟩) hmarked
      have hin := ((tidy_of_some hf).mp (htidy q i hmarked)).2.mpr rfl
      exact ⟨fun _ => hin, .inr⟩
    · have hne : (i : ℤ) ≠ n := by exact_mod_cast hi
      simp [hne]

/-- `Socket` goes well exactly if it is apt. -/
theorem socket_tidy_iff (htidy : AllTidy s) {p : ℕ} {family type : ℤ}
    {socket : Family → SocketType → ℤ} :
    (∀ s', s.step (.socket p family type socket) = .ok s' → AllTidy s') ↔
      s.Apt (.socket p family type socket) := by
  have hnew : ∀ s' n, Changed s s' p n (socket (hostFamily family) (hostType type)) true
      (some (hostFamily family)) →
      s'.machineSockets = (if hostFamily family = .inet6 then (n : ℤ) :: s.machineSockets
        else s.machineSockets) →
      (AllTidy s' ↔ socket (hostFamily family) (hostType type) = n ∧
        (hostFamily family = .inet → (n : ℤ) ∉ s.machineSockets) ∧
        (hostFamily family = .inet6 → ∀ q, q ≠ p →
          (s.openFilesTable q).openFilesMap.marked n = true → s.family q n = some .inet6)) := by
    intro s' n hchanged hsockets
    cases hf : hostFamily family with
    | inet =>
      rw [hf] at hchanged hsockets
      rw [htidy.inet_iff hchanged hsockets]
      simp
    | inet6 =>
      rw [hf] at hchanged hsockets
      rw [htidy.inet6_iff hchanged hsockets]
      simp
  constructor
  · intro h n hgives
    obtain ⟨s', hst⟩ := socket_exists hgives
    rcases socket_ok hst with ⟨-, hnone⟩ | ⟨n', hgives', hchanged, hsockets⟩
    · exact absurd hgives (hnone n)
    · rw [hgives.unique hgives'] at hchanged hsockets
      exact (hnew s' n hchanged hsockets).mp (h s' hst)
  · intro hapt s' hst
    rcases socket_ok hst with ⟨hsame, -⟩ | ⟨n, hgives, hchanged, hsockets⟩
    · exact htidy.same hsame
    · exact (hnew s' n hchanged hsockets).mpr (hapt n hgives)

/-- One call keeps all entries tidy exactly if it is apt; the cases are the calls. -/
theorem step_tidy_iff (hrec : Recorded s) (htidy : AllTidy s) (c : Call) :
    (∀ s', s.step c = .ok s' → AllTidy s') ↔ s.Apt c := by
  cases c with
  | openFile p fd => exact openFile_tidy_iff htidy
  | close p fileId result =>
    refine ⟨fun _ => trivial, fun _ s' hst => ?_⟩
    rcases close_changed hrec hst with hsame | ⟨n, hchanged, hsockets⟩
    · exact htidy.same hsame
    · refine (htidy.changed_iff hchanged fun q i _ _ => by rw [hsockets]).mpr fun h => ?_
      cases h
  | socket p family type socket => exact socket_tidy_iff htidy
  | connect p sockID ip port =>
    refine ⟨fun _ => trivial, fun _ s' hst => ?_⟩
    rw [connect_ok hst]
    exact htidy

end

theorem new_recorded : Recorded new := by
  intro p n f hf
  cases hf

theorem new_tidy : AllTidy new := by
  intro p n _
  exact (tidy_of_none rfl).mpr List.not_mem_nil

/-- For every history of system calls: `Socket` and `Connect` agree after each of them exactly
when all of them are apt. -/
theorem agrees_iff_apt (cs : List Call) :
    Along step (fun s c => ∀ s', s.step c = .ok s' → Agrees s') new cs ↔ Along step Apt new cs := by
  refine Along.iff (I := fun s => Recorded s ∧ AllTidy s) ?_ ?_ ⟨new_recorded, new_tidy⟩
  · rintro s c s' ⟨hrec, htidy⟩ hapt hst
    exact ⟨step_recorded hrec hst, (step_tidy_iff hrec htidy c).mpr hapt s' hst⟩
  · rintro s c ⟨hrec, htidy⟩
    rw [← step_tidy_iff hrec htidy c]
    exact forall_congr' fun s' => imp_congr_right fun hst =>
      agrees_iff_tidy (step_recorded hrec hst)

/-- An IPv4 socket with Unix handle `5` gets handle `3`, and the host is asked to connect `3`. -/
theorem socket_not_agrees : ∃ s, new.step (.socket 0 0 0 fun _ _ => 5) = .ok s ∧
    s.family 0 3 = some .inet ∧ (s.openFilesTable 0).getUnixHandle 3 = .ok 5 ∧
    s.nachosConnect 0 3 "127.0.0.1" 80 = .ok ⟨3, .inet, "127.0.0.1", 80⟩ ∧ ¬ Agrees s := by
  obtain ⟨s, hst, hfamily, hget, hconnect⟩ : ∃ s,
      new.step (.socket 0 0 0 fun _ _ => 5) = .ok s ∧ s.family 0 3 = some .inet ∧
      (s.openFilesTable 0).getUnixHandle 3 = .ok 5 ∧
      s.nachosConnect 0 3 "127.0.0.1" 80 = .ok ⟨3, .inet, "127.0.0.1", 80⟩ := by decide +kernel
  refine ⟨s, hst, hfamily, hget, hconnect, fun h => ?_⟩
  obtain ⟨u, hu, hcall⟩ := h.connects 0 3 .inet hfamily "127.0.0.1" 80
  rw [show ((3 : ℕ) : ℤ) = 3 from rfl] at hu hcall
  rw [hget, Except.ok.injEq] at hu
  rw [hconnect, Except.ok.injEq, HostConnect.mk.injEq] at hcall
  exact absurd (hu.trans hcall.1.symm) (by decide)

end Sockets
end NachOS
