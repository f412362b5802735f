import Xv6.Kernel.Footprint

/-! # Processes that write through one open file

The processes share a `struct file` of type `FD_INODE`, and with it the offset `f->off`. In
`filewrite` the offset is read, used and updated in steps, between which other processes run;
the lock of the inode is held across them. So the writes are appended one after the other, when
the offset is at the end of the file at first.
-/

namespace Xv6.Kernel.SharedOffset

open Lib Fs Function

/-- Where a process is in `filewrite(f, addr, n)`. The `n` bytes at `addr` are `buf`. -/
inductive Pc where
  | user
  /-- At the head of the loop. -/
  | turn (buf : List UInt8) (i : Nat)
  /-- `begin_op` and then `ilock` have returned. -/
  | begun (buf : List UInt8) (i : Nat)
  | locked (buf : List UInt8) (i : Nat)
  /-- In the loop of `writei`, with its `off` and `tot`; then at its end. -/
  | writing (buf : List UInt8) (i off tot : Nat)
  | ending (buf : List UInt8) (i off tot : Nat)
  /-- `writei` has returned `r`. -/
  | wrote (buf : List UInt8) (i : Nat) (r : Int)
  /-- `f->off += r` has read `f->off`. -/
  | loaded (buf : List UInt8) (i : Nat) (r : Int) (off : BitVec 32)
  | stored (buf : List UInt8) (i : Nat) (r : Int)
  /-- `iunlock` has returned. -/
  | unlocked (buf : List UInt8) (i : Nat) (r : Int)
  deriving DecidableEq

structure State where
  fs : Fs.State
  /-- `*f->ip`, its lock, and `f->off`. -/
  ip : Dinode
  lock : Option Nat
  off : BitVec 32
  pc : Nat → Pc

def State.goto (s : State) (p : Nat) (pc : Pc) : State :=
  { s with pc := update s.pc p pc }

@[simp] theorem State.goto_pc_self (s : State) (p : Nat) (pc : Pc) : (s.goto p pc).pc p = pc :=
  update_self _ _ _

theorem State.goto_pc_of_ne {p q : Nat} (other : q ≠ p) (s : State) (pc : Pc) :
    (s.goto p pc).pc q = s.pc q :=
  update_of_ne other _ _

@[simp] theorem State.goto_lock (s : State) (p : Nat) (pc : Pc) : (s.goto p pc).lock = s.lock := rfl

inductive Event where
  /-- Process `p` calls `write`; the whole buffer can be read. -/
  | write (p : Nat) (buf : List UInt8)
  /-- The next step of `p` in `filewrite`. -/
  | go (p : Nat)
  deriving DecidableEq

/-- `n1`. -/
def piece (buf : List UInt8) (i : Nat) : Nat := min (buf.length - i) maxWrite

/-- The source of the bytes at `addr + i`. -/
def source (buf : List UInt8) (i : Nat) : Source := fun x => buf[i + x]?

/-- A step of `filewrite`, with the value that it returns at its end. -/
def go (sb : Superblock) (inum : Nat) (s : State) (p : Nat) : Option (State × Option Int) :=
  match s.pc p with
  | .user => none
  | .turn buf i =>
      if i < buf.length then some (s.goto p (.begun buf i), none)
      else some (s.goto p .user, some (if i = buf.length then buf.length else -1))
  | .begun buf i =>
      if s.lock = none then some ({ s with lock := some p }.goto p (.locked buf i), none) else none
  | .locked buf i =>
      if s.off > s.ip.size ∨ s.off + BitVec.ofNat 32 (piece buf i) < s.off ∨
          (s.off + BitVec.ofNat 32 (piece buf i)).toNat > MAXFILE * BSIZE then
        some (s.goto p (.wrote buf i (-1)), none)
      else some (s.goto p (.writing buf i s.off.toNat 0), none)
  | .writing buf i off tot =>
      if tot < piece buf i then
        match writeiLoop sb (source buf i) (piece buf i) 1 s.ip off tot s.fs with
        | .ok ((ip, off', tot'), fs) => some ({ s with fs, ip }.goto p
            (if tot' = tot then .ending buf i off' tot' else .writing buf i off' tot'), none)
        | .error _ => none
      else some (s.goto p (.ending buf i off tot), none)
  | .ending buf i off tot =>
      match iupdate sb inum (extend s.ip off) s.fs with
      | .ok (_, fs) => some ({ s with fs, ip := extend s.ip off }.goto p (.wrote buf i tot), none)
      | .error _ => none
  | .wrote buf i r =>
      if r > 0 then some (s.goto p (.loaded buf i r s.off), none)
      else some (s.goto p (.stored buf i r), none)
  | .loaded buf i r off =>
      some ({ s with off := off + BitVec.ofInt 32 r }.goto p (.stored buf i r), none)
  | .stored buf i r => some ({ s with lock := none }.goto p (.unlocked buf i r), none)
  | .unlocked buf i r =>
      if r = piece buf i then some (s.goto p (.turn buf (i + piece buf i)), none)
      else some (s.goto p .user, some (if i = buf.length then buf.length else -1))

def step (sb : Superblock) (inum : Nat) (s : State) : Event → Option (State × Option Int)
  | .write p buf =>
      match s.pc p with
      | .user => some (s.goto p (.turn buf 0), none)
      | _ => none
  | .go p => go sb inum s p

def machine (sb : Superblock) (inum : Nat) : Machine State Event (Option Int) := ⟨step sb inum⟩

/-! ## What the calls ask for and return -/

/-- The buffers that `p` has asked to write. -/
def calls (p : Nat) (tr : List (Event × Option Int)) : List (List UInt8) :=
  tr.filterMap fun x =>
    match x.1 with
    | .write q buf => if q = p then some buf else none
    | .go _ => none

/-- What the calls of `p` have returned. -/
def returns (p : Nat) (tr : List (Event × Option Int)) : List Int :=
  tr.filterMap fun x =>
    match x.1 with
    | .write _ _ => none
    | .go q => if q = p then x.2 else none

/-- The writes in the order in which they got the lock: process, buffer and return value. -/
abbrev Order := List (Nat × List UInt8 × Int)

/-- The writes of `p`. -/
def Order.of (order : Order) (p : Nat) : Order := order.filter fun x => x.1 = p

/-- The buffers whose writes return their lengths. -/
def Order.written (order : Order) : List (List UInt8) :=
  (order.filter fun x => x.2.2 = x.2.1.length).map fun x => x.2.1

/-- The buffer of a call that has not got to its end. -/
def Pc.waiting : Pc → List (List UInt8)
  | .turn buf 0 | .begun buf _ | .locked buf _ | .writing buf _ _ _ | .ending buf _ _ _ => [buf]
  | _ => []

/-- What the call will return, when this is settled. -/
def Pc.result : Pc → List Int
  | .turn buf (_ + 1) => [buf.length]
  | .wrote buf i r | .loaded buf i r _ | .stored buf i r | .unlocked buf i r =>
      [if r = piece buf i then buf.length else -1]
  | _ => []

/-- The process holds the lock of the inode. -/
def Pc.inside : Pc → Bool
  | .locked .. | .writing .. | .ending .. | .wrote .. | .loaded .. | .stored .. => true
  | _ => false

/-- A buffer that is written in one piece. -/
def Small (buf : List UInt8) : Prop := buf.length ≤ maxWrite

/-- The loop of `filewrite` takes one turn. -/
def Pc.Once : Pc → Prop
  | .user => True
  | .turn buf i => Small buf ∧ (i = 0 ∨ i = buf.length)
  | .begun buf i | .locked buf i | .writing buf i _ _ | .ending buf i _ _ =>
      Small buf ∧ buf ≠ [] ∧ i = 0
  | .wrote buf i r | .loaded buf i r _ | .stored buf i r | .unlocked buf i r =>
      Small buf ∧ buf ≠ [] ∧ i = 0 ∧ (r = buf.length ∨ r = -1)

theorem Small.piece {buf : List UInt8} (small : Small buf) : piece buf 0 = buf.length := by
  rw [SharedOffset.piece, Nat.sub_zero, Nat.min_eq_left small]

/-- In `fs` the file has what it had at first and all that is written; the last `rest` bytes
    are not counted in `off` yet. -/
structure Quiet (sb : Superblock) (inum : Nat) (old : List UInt8) (order : Order) (fs : Fs.State)
    (ip : Dinode) (off : BitVec 32) (rest : Nat) : Prop where
  wellFormed : WellFormed sb fs.disk
  allocated : Allocated sb fs.disk inum
  inode : ip = inodes sb fs.disk inum
  size : off.toNat + rest = ip.size.toNat
  bytes : content ip fs.disk = old ++ order.written.flatten
  /-- A write is refused only when the file would become too large. -/
  refused : ∀ x ∈ order, x.2.2 ≠ x.2.1.length →
    x.2.2 = -1 ∧ MAXFILE * BSIZE < ip.size.toNat + x.2.1.length

/-- What the process knows that holds the lock. While it is in `writei` this started from `fs`
    and `ip`, and gets from there to what it gets to from here. -/
def Stage (sb : Superblock) (inum : Nat) (old : List UInt8) (order : Order) (s : State) :
    Pc → Prop
  | .writing buf i off tot => ∃ fs ip rounds, Quiet sb inum old order fs ip s.off 0 ∧
      Enough sb fs.disk ip (s.off.toNat + buf.length) ∧
      s.off.toNat + buf.length ≤ MAXFILE * BSIZE ∧ buf.length - tot ≤ rounds ∧
      writeiLoop sb (source buf i) buf.length rounds s.ip off tot s.fs =
        writeiLoop sb (source buf i) buf.length buf.length ip s.off.toNat 0 fs
  | .ending buf i off tot => ∃ fs ip, Quiet sb inum old order fs ip s.off 0 ∧
      Enough sb fs.disk ip (s.off.toNat + buf.length) ∧
      s.off.toNat + buf.length ≤ MAXFILE * BSIZE ∧
      writeiLoop sb (source buf i) buf.length buf.length ip s.off.toNat 0 fs =
        .ok ((s.ip, off, tot), s.fs)
  | .wrote _ _ r => Quiet sb inum old order s.fs s.ip s.off r.toNat
  | .loaded _ _ r off => Quiet sb inum old order s.fs s.ip s.off r.toNat ∧ off = s.off ∧ 0 < r
  | _ => Quiet sb inum old order s.fs s.ip s.off 0

structure Inv (sb : Superblock) (inum : Nat) (old : List UInt8) (order : Order)
    (tr : List (Event × Option Int)) (s : State) : Prop where
  calls : ∀ p, calls p tr = (order.of p).map (fun x => x.2.1) ++ (s.pc p).waiting
  returns : ∀ p, returns p tr ++ (s.pc p).result = (order.of p).map fun x => x.2.2
  once : ∀ p, (s.pc p).Once
  mutex : ∀ p, (s.pc p).inside = true ↔ s.lock = some p
  free : s.lock = none → Quiet sb inum old order s.fs s.ip s.off 0
  held : ∀ p, s.lock = some p → Stage sb inum old order s (s.pc p)

section

variable {sb : Superblock} {inum : Nat} {old : List UInt8} {order order' : Order}
variable {tr tr' : List (Event × Option Int)} {s t : State} {p q : Nat} {now pc : Pc}
variable {o : Option Int} {buf : List UInt8} {i : Nat} {r : Int}
variable {off : BitVec 32} {tot : Nat} {src : Source} {ip : Dinode} {fs : Fs.State}

theorem calls_go (q p : Nat) (tr : List (Event × Option Int)) (o : Option Int) :
    calls q (tr ++ [(.go p, o)]) = calls q tr := by
  simp [calls]

theorem returns_go (q p : Nat) (tr : List (Event × Option Int)) (o : Option Int) :
    returns q (tr ++ [(.go p, o)]) = returns q tr ++ if p = q then o.toList else [] := by
  by_cases same : p = q
  · cases o <;> simp [returns, same]
  · simp [returns, same]

theorem calls_write (q p : Nat) (buf : List UInt8) (tr : List (Event × Option Int))
    (o : Option Int) :
    calls q (tr ++ [(.write p buf, o)]) = calls q tr ++ if p = q then [buf] else [] := by
  by_cases same : p = q
  · simp [calls, same]
  · simp [calls, same]

theorem returns_write (q p : Nat) (buf : List UInt8) (tr : List (Event × Option Int))
    (o : Option Int) : returns q (tr ++ [(.write p buf, o)]) = returns q tr := by
  simp [returns]

theorem Order.of_snoc_self (order : Order) (p : Nat) (buf : List UInt8) (r : Int) :
    Order.of (order ++ [(p, buf, r)]) p = order.of p ++ [(p, buf, r)] := by
  simp [Order.of]

theorem Order.of_snoc_of_ne (order : Order) (other : q ≠ p) (buf : List UInt8) (r : Int) :
    Order.of (order ++ [(p, buf, r)]) q = order.of q := by
  simp [Order.of, other.symm]

/-- The process that moves holds the lock before and after the step or at neither time. -/
theorem mutex_same (mutex : ∀ q, (s.pc q).inside = true ↔ s.lock = some q) (at_ : s.pc p = now)
    (pcs : t.pc = update s.pc p pc) (lock : t.lock = s.lock) (same : pc.inside = now.inside) :
    ∀ q, (t.pc q).inside = true ↔ t.lock = some q := by
  intro q
  rw [pcs, lock, ← mutex q]
  by_cases here : q = p
  · rw [here, update_self, same, at_]
  · rw [update_of_ne here]

section

variable (inv : Inv sb inum old order tr s)
include inv

/-- Process `p` moves; the calls of the others are as they were. -/
theorem Inv.next (pcs : t.pc = update s.pc p pc)
    (others : ∀ q, q ≠ p → SharedOffset.calls q tr' = SharedOffset.calls q tr ∧
      SharedOffset.returns q tr' = SharedOffset.returns q tr ∧ order'.of q = order.of q)
    (calls : SharedOffset.calls p tr' = (order'.of p).map (fun x => x.2.1) ++ pc.waiting)
    (returns : SharedOffset.returns p tr' ++ pc.result = (order'.of p).map fun x => x.2.2)
    (once : pc.Once) (mutex : ∀ q, (t.pc q).inside = true ↔ t.lock = some q)
    (free : t.lock = none → Quiet sb inum old order' t.fs t.ip t.off 0)
    (held : ∀ q, t.lock = some q → Stage sb inum old order' t (t.pc q)) :
    Inv sb inum old order' tr' t where
  calls q := by
    by_cases here : q = p
    · rwa [here, pcs, update_self]
    · obtain ⟨same, -, of⟩ := others q here
      rw [pcs, update_of_ne here, same, of, inv.calls q]
  returns q := by
    by_cases here : q = p
    · rwa [here, pcs, update_self]
    · obtain ⟨-, same, of⟩ := others q here
      rw [pcs, update_of_ne here, same, of, inv.returns q]
  once q := by
    rw [pcs]
    by_cases here : q = p
    · rwa [here, update_self]
    · rw [update_of_ne here]
      exact inv.once q
  mutex := mutex
  free := free
  held := held

theorem Inv.move (at_ : s.pc p = now) (pcs : t.pc = update s.pc p pc)
    (waiting : now.waiting = pc.waiting) (result : now.result = o.toList ++ pc.result)
    (once : pc.Once) (mutex : ∀ q, (t.pc q).inside = true ↔ t.lock = some q)
    (free : t.lock = none → Quiet sb inum old order t.fs t.ip t.off 0)
    (held : ∀ q, t.lock = some q → Stage sb inum old order t (t.pc q)) :
    Inv sb inum old order (tr ++ [(.go p, o)]) t := by
  refine inv.next pcs (fun q other => ⟨calls_go .., ?_, rfl⟩) ?_ ?_ once mutex free held
  · rw [returns_go, if_neg other.symm, List.append_nil]
  · rw [calls_go, inv.calls p, at_, waiting]
  · rw [returns_go, if_pos rfl, ← inv.returns p, List.append_assoc, at_, result]

theorem Inv.settle (at_ : s.pc p = now) (pcs : t.pc = update s.pc p pc)
    (waiting : now.waiting = [buf]) (none_ : pc.waiting = []) (before : now.result = [])
    (result : o.toList ++ pc.result = [r]) (once : pc.Once)
    (mutex : ∀ q, (t.pc q).inside = true ↔ t.lock = some q)
    (free : t.lock = none → Quiet sb inum old (order ++ [(p, buf, r)]) t.fs t.ip t.off 0)
    (held : ∀ q, t.lock = some q → Stage sb inum old (order ++ [(p, buf, r)]) t (t.pc q)) :
    Inv sb inum old (order ++ [(p, buf, r)]) (tr ++ [(.go p, o)]) t := by
  refine inv.next pcs (fun q other => ⟨calls_go .., ?_, Order.of_snoc_of_ne _ other ..⟩) ?_ ?_ once
    mutex free held
  · rw [returns_go, if_neg other.symm, List.append_nil]
  · rw [calls_go, inv.calls p, at_, waiting, none_, Order.of_snoc_self, List.map_append]
    simp
  · have old_ := inv.returns p
    rw [at_, before, List.append_nil] at old_
    rw [returns_go, if_pos rfl, List.append_assoc, result, old_, Order.of_snoc_self,
      List.map_append]
    rfl

theorem Inv.stage (at_ : s.pc p = now) (inside : now.inside = true) :
    Stage sb inum old order s now :=
  at_ ▸ inv.held p ((inv.mutex p).mp (at_ ▸ inside))

end

/-! ## In writei -/

theorem writeiLoop_succ {n off : Nat} {s : Fs.State} (rounds : Nat) :
    writeiLoop sb src n (rounds + 1) ip off tot s =
      (writeiLoop sb src n 1 ip off tot s).bind fun r =>
        if r.1.2.2 = tot then .ok r else writeiLoop sb src n rounds r.1.1 r.1.2.1 r.1.2.2 r.2 := by
  have width : off % BSIZE < BSIZE := Nat.mod_lt _ (by decide)
  rw [writeiLoop, writeiLoop]
  by_cases left : tot < n
  · rw [if_pos left, if_pos left]
    simp only [bind, StateT.bind]
    cases mapped : bmap sb ip (off / BSIZE) s with
    | error e => rfl
    | ok r =>
      obtain ⟨⟨addr, ip'⟩, t⟩ := r
      simp only [Except.bind]
      by_cases none_ : addr = 0
      · rw [if_pos none_, if_pos none_]
        simp
      · rw [if_neg none_, if_neg none_]
        have more : tot + min (n - tot) (BSIZE - off % BSIZE) ≠ tot := by omega
        obtain ⟨bytes, ok⟩ := src.copyin tot (min (n - tot) (BSIZE - off % BSIZE))
        dsimp only
        obtain ⟨u, copied⟩ : ∃ u, copyTo addr (off % BSIZE) bytes t = .ok (⟨⟩, u) := by
          unfold copyTo
          split
          · exact ⟨_, rfl⟩
          · exact ⟨_, rfl⟩
        rw [StateT.bind, copied, StateT.bind, copied]
        cases ok with
        | false => exact (if_pos rfl).symm
        | true => exact (if_neg more).symm
  · rw [if_neg left, if_neg left]
    simp [Except.bind]

theorem writeiLoop_le {n off : Nat} {s : Fs.State} (rounds : Nat) :
    Outcome (writeiLoop sb src n rounds ip off tot) s (fun _ => True) fun r _ => tot ≤ r.2.2 := by
  induction rounds generalizing ip off tot s with
  | zero => exact .pure (Nat.le_refl tot)
  | succ rounds ih =>
    rw [writeiLoop]
    split
    · refine .bind (Outcome.trivial.mono ?_)
      rintro ⟨addr, ip'⟩ t -
      dsimp only
      split
      · exact .pure (Nat.le_refl tot)
      · refine .bind (Outcome.trivial.mono fun _ u _ => ?_)
        split
        · refine .bind (Outcome.trivial.mono fun _ v _ => ?_)
          exact ih.mono fun _ _ le => Nat.le_trans (Nat.le_add_right _ _) le
        · exact .pure (Nat.le_refl tot)
    · exact .pure (Nat.le_refl tot)

theorem writei_of_loop {fs' : Fs.State} {ip' : Dinode} {n : BitVec 32} {off' : Nat}
    (fits : off.toNat ≤ ip.size.toNat) (short : off.toNat + n.toNat ≤ MAXFILE * BSIZE)
    (ran : writeiLoop sb src n.toNat n.toNat ip off.toNat 0 fs = .ok ((ip', off', tot), fs')) :
    writei sb inum ip src off n fs =
      .ok (((tot : Int), extend ip' off'), fs'.iupdate sb inum (extend ip' off')) := by
  have fine := (writei_tests ip.size off n).not.mpr (by omega)
  rw [not_or, not_or] at fine
  rw [writei, if_neg (not_or.mpr ⟨fine.1, fine.2.1⟩), if_neg fine.2.2, run_bind ran]
  rfl

theorem toNat_length (small : Small buf) : (BitVec.ofNat 32 buf.length).toNat = buf.length := by
  have limit : maxWrite = 3072 := rfl
  rw [Small, limit] at small
  rw [BitVec.toNat_ofNat, Nat.mod_eq_of_lt (by omega)]

theorem Order.written_snoc (order : Order) (p : Nat) (buf : List UInt8) :
    Order.written (order ++ [(p, buf, (buf.length : Int))]) = order.written ++ [buf] := by
  simp [Order.written]

theorem Order.written_refused (order : Order) (p : Nat) :
    Order.written (order ++ [(p, buf, -1)]) = order.written := by
  have not_ : (-1 : Int) ≠ buf.length := by omega
  simp [Order.written, not_]

theorem Quiet.appended {fs' : Fs.State} {ip' : Dinode} {off' : Nat}
    (quiet : Quiet sb inum old order fs ip off 0) (small : Small buf)
    (enough : Enough sb fs.disk ip (off.toNat + buf.length))
    (short : off.toNat + buf.length ≤ MAXFILE * BSIZE)
    (ran : writeiLoop sb (source buf 0) buf.length buf.length ip off.toNat 0 fs =
      .ok ((ip', off', tot), fs'))
    (p : Nat) :
    tot = buf.length ∧ Quiet sb inum old (order ++ [(p, buf, (buf.length : Int))])
      (fs'.iupdate sb inum (extend ip' off')) (extend ip' off') off buf.length := by
  obtain ⟨wf, allocated, rfl, size, bytes, refused⟩ := quiet
  have n := toNat_length small
  obtain ⟨t, wrote, new, -, wf'⟩ := (fileSemantics wf allocated).writei (source buf 0) off
    (BitVec.ofNat 32 buf.length) buf (by omega) (by omega) n.symm
    (by
      intro x inside
      rw [n] at inside
      simp [source, inside]) (by rwa [n])
  have done := @writei_of_loop sb inum off tot (source buf 0) (inodes sb fs.disk inum) fs fs' ip'
    (BitVec.ofNat 32 buf.length) off' (by omega) (by omega) (by rwa [n])
  obtain ⟨_, becomes⟩ := (@writei_becomes sb fs inum (fun _ => False) wf allocated (source buf 0)
    off (BitVec.ofNat 32 buf.length)).ok wrote
  rw [wrote] at done
  simp only [Except.ok.injEq, Prod.mk.injEq] at done
  obtain ⟨⟨length, inode⟩, rfl⟩ := done
  -- the offset is the end of the file
  have total : (content (inodes sb fs.disk inum) fs.disk).length = off.toNat := by
    simp [content, ← size]
  have appended : content (inodes sb (fs'.iupdate sb inum (extend ip' off')).disk inum)
      (fs'.iupdate sb inum (extend ip' off')).disk = old ++ order.written.flatten ++ buf := by
    rw [new, List.take_of_length_le (by omega), List.drop_eq_nil_of_le (by omega), bytes,
      List.append_nil]
  have grown : (extend ip' off').size.toNat = off.toNat + buf.length := by
    have same := congrArg List.length new
    rw [List.take_of_length_le (by omega), List.drop_eq_nil_of_le (by omega), List.append_nil,
      List.length_append, total] at same
    rw [← inode]
    simpa [content] using same
  refine ⟨by omega, wf', ?_, inode.symm, grown.symm, ?_, ?_⟩
  · rw [Allocated, ← nodes_type, becomes.nodes, update_self]
    exact allocated
  · rw [inode] at appended
    rw [Order.written_snoc, List.flatten_append, ← List.append_assoc, appended]
    simp
  · intro x member not_
    rcases List.mem_append.mp member with before | last
    · obtain ⟨minus, large⟩ := refused x before not_
      exact ⟨minus, by omega⟩
    · rw [List.mem_singleton] at last
      subst last
      exact absurd rfl not_

/-! ## The steps -/

/-- The buffers are small, and a process finds enough free blocks when it has the lock. -/
def Ready (sb : Superblock) (s : State) : Event → Prop
  | .write _ buf => Small buf
  | .go p =>
      match s.pc p with
      | .locked buf _ => Enough sb s.fs.disk s.ip (s.off.toNat + buf.length)
      | _ => True

section

variable (inv : Inv sb inum old order tr s)
include inv

theorem Inv.mine (at_ : s.pc p = now) (before : now.inside = true) (lock : t.lock = s.lock)
    (pcs : t.pc = update s.pc p pc) (stage : Stage sb inum old order' t pc) :
    (t.lock = none → Quiet sb inum old order' t.fs t.ip t.off 0) ∧
      ∀ q, t.lock = some q → Stage sb inum old order' t (t.pc q) := by
  rw [lock, (inv.mutex p).mp (at_ ▸ before)]
  refine ⟨nofun, ?_⟩
  rintro q ⟨⟩
  rwa [pcs, update_self]

theorem Inv.inside (at_ : s.pc p = now) (pcs : t.pc = update s.pc p pc) (lock : t.lock = s.lock)
    (before : now.inside = true) (after : pc.inside = true) (waiting : now.waiting = pc.waiting)
    (result : now.result = pc.result) (once : pc.Once) (stage : Stage sb inum old order t pc) :
    Inv sb inum old order (tr ++ [(.go p, none)]) t := by
  obtain ⟨free, held⟩ := inv.mine at_ before lock pcs stage
  exact inv.move (o := none) at_ pcs waiting result once
    (mutex_same inv.mutex at_ pcs lock (after.trans before.symm)) free held

/-- The stage of another process, when one without the lock moves. -/
theorem Inv.held_of_outside (before : (s.pc p).inside = false) (held : s.lock = some q) :
    Stage sb inum old order (s.goto p pc) ((s.goto p pc).pc q) := by
  have other : q ≠ p := by
    rintro rfl
    rw [(inv.mutex q).mpr held] at before
    cases before
  rw [State.goto_pc_of_ne other]
  have stage := inv.held q held
  generalize s.pc q = pc' at stage
  cases pc' <;> exact stage

theorem Inv.outside (at_ : s.pc p = now) (before : now.inside = false)
    (after : pc.inside = false) (waiting : now.waiting = pc.waiting)
    (result : now.result = o.toList ++ pc.result) (once : pc.Once) :
    Inv sb inum old order (tr ++ [(.go p, o)]) (s.goto p pc) := by
  apply inv.move (t := s.goto p pc) at_ rfl waiting result once
    (mutex_same (t := s.goto p pc) inv.mutex at_ rfl rfl (after.trans before.symm))
  · exact inv.free
  · exact fun q held => inv.held_of_outside (at_ ▸ before) held

/-- The processes that do not hold the lock are not affected by what is done under it. -/
theorem Inv.locked (at_ : s.pc p = .locked buf i)
    (enough : Enough sb s.fs.disk s.ip (s.off.toNat + buf.length))
    (taken : go sb inum s p = some (t, o)) :
    ∃ order, Inv sb inum old order (tr ++ [(.go p, o)]) t := by
  obtain ⟨small, some_, rfl⟩ : (Pc.locked buf i).Once := at_ ▸ inv.once p
  have quiet : Quiet sb inum old order s.fs s.ip s.off 0 := inv.stage at_ rfl
  have n := toNat_length small
  have tests := writei_tests s.ip.size s.off (BitVec.ofNat 32 buf.length)
  have size := quiet.size
  rw [go, at_] at taken
  dsimp only at taken
  rw [small.piece] at taken
  split at taken
  · rename_i bad
    obtain ⟨rfl, rfl⟩ : s.goto p (.wrote buf 0 (-1)) = t ∧ none = o := by simpa using taken
    have large := tests.mp bad
    have not_ : (-1 : Int) ≠ piece buf 0 := by omega
    have stage : Stage sb inum old (order ++ [(p, buf, -1)]) (s.goto p (.wrote buf 0 (-1)))
        (.wrote buf 0 (-1)) := by
      refine ⟨quiet.wellFormed, quiet.allocated, quiet.inode, size, ?_, ?_⟩
      · rw [Order.written_refused]
        exact quiet.bytes
      · intro x member refused
        rcases List.mem_append.mp member with before | last
        · exact quiet.refused x before refused
        · rw [List.mem_singleton] at last
          subst last
          refine ⟨rfl, ?_⟩
          change MAXFILE * BSIZE < s.ip.size.toNat + buf.length
          omega
    obtain ⟨free, held⟩ := inv.mine (t := s.goto p (.wrote buf 0 (-1))) at_ rfl rfl rfl stage
    refine ⟨_, inv.settle at_ rfl rfl rfl rfl ?_ ⟨small, some_, rfl, .inr rfl⟩
      (mutex_same inv.mutex at_ rfl rfl rfl) free held⟩
    simp [Pc.result, not_]
  · rename_i fine
    obtain ⟨rfl, rfl⟩ : s.goto p (.writing buf 0 s.off.toNat 0) = t ∧ none = o := by
      simpa using taken
    have fits : s.off.toNat + buf.length ≤ MAXFILE * BSIZE := by
      have := tests.not.mp fine
      omega
    refine ⟨order, inv.inside at_ rfl rfl rfl rfl rfl rfl ⟨small, some_, rfl⟩ ?_⟩
    exact ⟨s.fs, s.ip, buf.length, quiet, enough, fits, by omega, rfl⟩

theorem Inv.writing {off tot : Nat} (at_ : s.pc p = .writing buf i off tot)
    (taken : go sb inum s p = some (t, o)) :
    Inv sb inum old order (tr ++ [(.go p, o)]) t := by
  have once : (Pc.writing buf i off tot).Once := at_ ▸ inv.once p
  obtain ⟨small, -, rfl⟩ := id once
  obtain ⟨fs, ip, rounds, quiet, enough, short, left, same⟩ := inv.stage at_ rfl
  rw [go, at_] at taken
  dsimp only at taken
  rw [small.piece] at taken
  split at taken
  · rename_i more
    -- at least one round is left
    obtain ⟨rounds, rfl⟩ : ∃ k, rounds = k + 1 := ⟨rounds - 1, by omega⟩
    rw [writeiLoop_succ] at same
    split at taken
    · rename_i ip' off' tot' fs' ran
      rw [ran] at same
      dsimp only [Except.bind] at same
      by_cases stuck : tot' = tot
      · rw [if_pos stuck] at taken same
        cases taken
        exact inv.inside at_ rfl rfl rfl rfl rfl rfl once
          ⟨fs, ip, quiet, enough, short, same.symm⟩
      · rw [if_neg stuck] at taken same
        obtain ⟨rfl, rfl⟩ := by simpa using taken
        have le := (writeiLoop_le 1).ok ran
        dsimp only at le
        exact inv.inside at_ rfl rfl rfl rfl rfl rfl once
          ⟨fs, ip, rounds, quiet, enough, short, by omega, same⟩
    · cases taken
  · rename_i all
    cases taken
    have ended : writeiLoop sb (source buf 0) buf.length rounds s.ip off tot s.fs =
        .ok ((s.ip, off, tot), s.fs) := by
      cases rounds with
      | zero => rfl
      | succ rounds => rw [writeiLoop, if_neg all]; rfl
    exact inv.inside at_ rfl rfl rfl rfl rfl rfl once
      ⟨fs, ip, quiet, enough, short, same.symm.trans ended⟩

theorem Inv.ending {off tot : Nat} (at_ : s.pc p = .ending buf i off tot)
    (taken : go sb inum s p = some (t, o)) :
    ∃ order, Inv sb inum old order (tr ++ [(.go p, o)]) t := by
  obtain ⟨small, some_, rfl⟩ : (Pc.ending buf i off tot).Once := at_ ▸ inv.once p
  obtain ⟨fs, ip, quiet, enough, short, ran⟩ := inv.stage at_ rfl
  obtain ⟨rfl, appended⟩ := quiet.appended small enough short ran p
  have updated : iupdate sb inum (extend s.ip off) s.fs =
      .ok (⟨⟩, s.fs.iupdate sb inum (extend s.ip off)) := rfl
  rw [go, at_] at taken
  dsimp only at taken
  rw [updated] at taken
  cases taken
  obtain ⟨free, held⟩ := inv.mine (t := ({ s with
    fs := s.fs.iupdate sb inum (extend s.ip off), ip := extend s.ip off } : State).goto p
      (.wrote buf 0 buf.length)) at_ rfl rfl rfl appended
  refine ⟨_, inv.settle at_ rfl rfl rfl rfl ?_ ⟨small, some_, rfl, .inl rfl⟩
    (mutex_same inv.mutex at_ rfl rfl rfl) free held⟩
  simp [Pc.result, small.piece]

theorem Inv.loaded {off : BitVec 32} (at_ : s.pc p = .loaded buf i r off)
    (taken : go sb inum s p = some (t, o)) :
    Inv sb inum old order (tr ++ [(.go p, o)]) t := by
  obtain ⟨quiet, rfl, positive⟩ := inv.stage at_ rfl
  have once : (Pc.loaded buf i r s.off).Once := at_ ▸ inv.once p
  rw [go, at_] at taken
  cases taken
  refine inv.inside at_ rfl rfl rfl rfl rfl rfl once ?_
  obtain ⟨wf, allocated, inode, size, bytes, refused⟩ := quiet
  refine ⟨wf, allocated, inode, ?_, bytes, refused⟩
  obtain ⟨k, rfl⟩ := Int.eq_ofNat_of_zero_le (Int.le_of_lt positive)
  have whole := s.ip.size.isLt
  change (s.off + BitVec.ofInt 32 (k : Int)).toNat + 0 = s.ip.size.toNat
  rw [BitVec.ofInt_natCast, BitVec.toNat_add, BitVec.toNat_ofNat, ← size, Int.toNat_natCast]
  omega

end

theorem Quiet.nothing {rest : Nat} (quiet : Quiet sb inum old order fs ip off rest) (p : Nat) :
    Quiet sb inum old (order ++ [(p, [], 0)]) fs ip off rest := by
  obtain ⟨wf, allocated, inode, size, bytes, refused⟩ := quiet
  refine ⟨wf, allocated, inode, size, ?_, ?_⟩
  · have same := Order.written_snoc order p []
    rw [List.length_nil, Int.natCast_zero] at same
    rw [same, bytes]
    simp
  · intro x member not_
    rcases List.mem_append.mp member with before | last
    · exact refused x before not_
    · rw [List.mem_singleton] at last
      subst last
      exact absurd rfl not_

theorem Stage.nothing (stage : Stage sb inum old order s pc) (p : Nat) :
    Stage sb inum old (order ++ [(p, [], 0)]) s pc := by
  cases pc with
  | writing buf i off tot =>
    obtain ⟨fs, ip, rounds, quiet, rest⟩ := stage
    exact ⟨fs, ip, rounds, quiet.nothing p, rest⟩
  | ending buf i off tot =>
    obtain ⟨fs, ip, quiet, rest⟩ := stage
    exact ⟨fs, ip, quiet.nothing p, rest⟩
  | loaded buf i r off => exact ⟨stage.1.nothing p, stage.2⟩
  | user | turn | begun | locked | wrote | stored | unlocked => exact Quiet.nothing stage p

section

variable (inv : Inv sb inum old order tr s)
include inv

theorem Inv.turn (at_ : s.pc p = .turn buf i) (taken : go sb inum s p = some (t, o)) :
    ∃ order, Inv sb inum old order (tr ++ [(.go p, o)]) t := by
  obtain ⟨small, place⟩ : (Pc.turn buf i).Once := at_ ▸ inv.once p
  rw [go, at_] at taken
  dsimp only at taken
  split at taken
  · rename_i more
    cases taken
    obtain rfl : i = 0 := by omega
    have some_ : buf ≠ [] := List.ne_nil_of_length_pos more
    exact ⟨order, inv.outside at_ rfl rfl rfl rfl ⟨small, some_, rfl⟩⟩
  · rename_i all
    obtain rfl : i = buf.length := by omega
    rw [if_pos rfl] at taken
    obtain ⟨rfl, rfl⟩ := by simpa using taken
    cases buf with
    | nil =>
      refine ⟨order ++ [(p, [], 0)], inv.settle (t := s.goto p .user) at_ rfl rfl rfl rfl rfl
        trivial (mutex_same inv.mutex at_ rfl rfl rfl) ?_ ?_⟩
      · exact fun none_ => (inv.free none_).nothing p
      · exact fun q held => (inv.held_of_outside (by rw [at_]; rfl) held).nothing p
    | cons c rest => exact ⟨order, inv.outside at_ rfl rfl rfl rfl trivial⟩

theorem Inv.begun (at_ : s.pc p = .begun buf i) (taken : go sb inum s p = some (t, o)) :
    Inv sb inum old order (tr ++ [(.go p, o)]) t := by
  have once : (Pc.begun buf i).Once := at_ ▸ inv.once p
  rw [go, at_] at taken
  dsimp only at taken
  split at taken
  · rename_i free
    cases taken
    have pcs : (({ s with lock := some p } : State).goto p (.locked buf i)).pc =
        update s.pc p (.locked buf i) := rfl
    refine inv.move at_ pcs rfl rfl once ?_ nofun ?_
    · intro q
      by_cases here : q = p
      · simp [here, Pc.inside]
      · have outside : (s.pc q).inside ≠ true := by
          rw [ne_eq, inv.mutex q, free]
          nofun
        rw [State.goto_pc_of_ne here]
        simpa [outside] using fun same : p = q => here same.symm
    · intro q held
      obtain rfl : p = q := by simpa using held
      rw [State.goto_pc_self]
      exact inv.free free
  · cases taken

theorem Inv.wrote (at_ : s.pc p = .wrote buf i r) (taken : go sb inum s p = some (t, o)) :
    Inv sb inum old order (tr ++ [(.go p, o)]) t := by
  have once : (Pc.wrote buf i r).Once := at_ ▸ inv.once p
  have quiet : Quiet sb inum old order s.fs s.ip s.off r.toNat := inv.stage at_ rfl
  rw [go, at_] at taken
  dsimp only at taken
  split at taken
  · rename_i positive
    cases taken
    exact inv.inside at_ rfl rfl rfl rfl rfl rfl once ⟨quiet, rfl, positive⟩
  · rename_i none_
    obtain ⟨rfl, rfl⟩ := by simpa using taken
    rw [Int.toNat_of_nonpos (by omega)] at quiet
    exact inv.inside at_ rfl rfl rfl rfl rfl rfl once quiet

theorem Inv.stored (at_ : s.pc p = .stored buf i r) (taken : go sb inum s p = some (t, o)) :
    Inv sb inum old order (tr ++ [(.go p, o)]) t := by
  have mine := (inv.mutex p).mp (by rw [at_]; rfl)
  have once : (Pc.stored buf i r).Once := at_ ▸ inv.once p
  have quiet : Quiet sb inum old order s.fs s.ip s.off 0 := inv.stage at_ rfl
  rw [go, at_] at taken
  cases taken
  have pcs : (({ s with lock := none } : State).goto p (.unlocked buf i r)).pc =
      update s.pc p (.unlocked buf i r) := rfl
  refine inv.move at_ pcs rfl rfl once ?_ (fun _ => quiet) nofun
  intro q
  by_cases here : q = p
  · simp [here, Pc.inside]
  · have outside : (s.pc q).inside ≠ true := by
      rw [ne_eq, inv.mutex q, mine]
      simpa using fun same : p = q => here same.symm
    rw [State.goto_pc_of_ne here]
    simp [outside]

theorem Inv.unlocked (at_ : s.pc p = .unlocked buf i r) (taken : go sb inum s p = some (t, o)) :
    Inv sb inum old order (tr ++ [(.go p, o)]) t := by
  obtain ⟨small, some_, rfl, result⟩ : (Pc.unlocked buf i r).Once := at_ ▸ inv.once p
  have positive : buf.length ≠ 0 := fun none_ => some_ (List.length_eq_zero_iff.mp none_)
  rw [go, at_] at taken
  dsimp only at taken
  split at taken
  · rename_i whole
    rw [small.piece, Nat.zero_add] at taken
    cases taken
    obtain ⟨k, length⟩ := Nat.exists_eq_succ_of_ne_zero positive
    refine inv.outside (o := none) at_ rfl rfl ?_ ?_ ⟨small, .inr rfl⟩
    · rw [length]
      rfl
    · rw [Pc.result, if_pos whole, length]
      simp [Pc.result, length]
  · rename_i less
    rw [if_neg (by omega)] at taken
    obtain ⟨rfl, rfl⟩ := by simpa using taken
    refine inv.outside at_ rfl rfl rfl ?_ trivial
    rw [Pc.result, if_neg less]
    rfl

/-- A step of `filewrite` keeps the invariant; it may settle a write. -/
theorem Inv.go (ready : Ready sb s (.go p)) (taken : go sb inum s p = some (t, o)) :
    ∃ order, Inv sb inum old order (tr ++ [(.go p, o)]) t := by
  cases at_ : s.pc p with
  | user =>
    rw [SharedOffset.go, at_] at taken
    cases taken
  | turn buf i => exact inv.turn at_ taken
  | begun buf i => exact ⟨order, inv.begun at_ taken⟩
  | locked buf i =>
    rw [Ready, at_] at ready
    exact inv.locked at_ ready taken
  | writing buf i off tot => exact ⟨order, inv.writing at_ taken⟩
  | ending buf i off tot => exact inv.ending at_ taken
  | wrote buf i r => exact ⟨order, inv.wrote at_ taken⟩
  | loaded buf i r off => exact ⟨order, inv.loaded at_ taken⟩
  | stored buf i r => exact ⟨order, inv.stored at_ taken⟩
  | unlocked buf i r => exact ⟨order, inv.unlocked at_ taken⟩

theorem Inv.write (small : Small buf) (taken : step sb inum s (.write p buf) = some (t, o)) :
    Inv sb inum old order (tr ++ [(.write p buf, o)]) t := by
  rw [step] at taken
  split at taken
  · rename_i at_
    cases taken
    refine inv.next (t := s.goto p (.turn buf 0)) rfl (fun q other => ⟨?_, returns_write .., rfl⟩)
      ?_ ?_ ⟨small, .inl rfl⟩ (mutex_same inv.mutex at_ rfl rfl rfl) inv.free
      fun q held => inv.held_of_outside (by rw [at_]; rfl) held
    · rw [calls_write, if_neg other.symm, List.append_nil]
    · rw [calls_write, inv.calls p, at_, if_pos rfl]
      simp [Pc.waiting]
    · rw [returns_write, ← inv.returns p, at_]
      rfl
  · cases taken

end

/-- The inode is allocated, no write is under way, and the offset is the size of the file. -/
structure Opened (sb : Superblock) (inum : Nat) (s : State) : Prop where
  wellFormed : WellFormed sb s.fs.disk
  allocated : Allocated sb s.fs.disk inum
  inode : s.ip = inodes sb s.fs.disk inum
  free : s.lock = none
  idle : ∀ p, s.pc p = .user
  off : s.off = s.ip.size

theorem Opened.inv (opened : Opened sb inum s) : Inv sb inum (content s.ip s.fs.disk) [] [] s where
  calls p := by
    rw [opened.idle p]
    rfl
  returns p := by
    rw [opened.idle p]
    rfl
  once p := by
    rw [opened.idle p]
    trivial
  mutex p := by
    rw [opened.idle p, opened.free]
    exact ⟨nofun, nofun⟩
  free _ := by
    refine ⟨opened.wellFormed, opened.allocated, opened.inode, ?_, ?_, nofun⟩
    · rw [opened.off, Nat.add_zero]
    · simp [Order.written]
  held p held := by
    rw [opened.free] at held
    cases held

theorem inv_run (opened : Opened sb inum s) (run : (machine sb inum).Run s tr t)
    (ready : (machine sb inum).Throughout s tr (Ready sb)) :
    ∃ order, Inv sb inum (content s.ip s.fs.disk) order tr t := by
  refine run.invariant (fun tr t => ∃ order, Inv sb inum (content s.ip s.fs.disk) order tr t) ready
    ⟨[], opened.inv⟩ ?_
  rintro pre u e o v - ⟨order, inv⟩ allowed taken
  cases e with
  | write p buf => exact ⟨order, inv.write allowed taken⟩
  | go p => exact inv.go allowed taken

end

/-- When no write is under way, the file has its old content and then the buffers that were
    written, each once, in the order `order`: that of each process is the order of its calls. A
    write is refused only when the file would become too large. -/
theorem appends {sb : Superblock} {inum : Nat} {s t : State} {tr : List (Event × Option Int)}
    (opened : Opened sb inum s) (run : (machine sb inum).Run s tr t)
    (ready : (machine sb inum).Throughout s tr (Ready sb)) (idle : ∀ p, t.pc p = .user) :
    ∃ order : Order,
      (∀ p, (order.of p).map (fun x => x.2.1) = calls p tr ∧
        (order.of p).map (fun x => x.2.2) = returns p tr) ∧
      content (inodes sb t.fs.disk inum) t.fs.disk =
        content (inodes sb s.fs.disk inum) s.fs.disk ++ order.written.flatten ∧
      t.off = (inodes sb t.fs.disk inum).size ∧
      ∀ x ∈ order, x.2.2 ≠ x.2.1.length →
        x.2.2 = -1 ∧ MAXFILE * BSIZE < (inodes sb t.fs.disk inum).size.toNat + x.2.1.length := by
  obtain ⟨order, inv⟩ := inv_run opened run ready
  have free : t.lock = none := by
    by_contra held
    obtain ⟨p, mine⟩ := Option.ne_none_iff_exists'.mp held
    have inside := (inv.mutex p).mpr mine
    rw [idle p] at inside
    cases inside
  obtain ⟨-, -, inode, size, bytes, refused⟩ := inv.free free
  rw [inode] at size bytes refused
  refine ⟨order, fun p => ⟨?_, ?_⟩, ?_, ?_, ?_⟩
  · rw [inv.calls p, idle p]
    simp [Pc.waiting]
  · rw [← inv.returns p, idle p]
    simp [Pc.result]
  · rw [bytes, opened.inode]
  · exact BitVec.eq_of_toNat_eq size
  · exact refused

/-! ## Two processes -/

def Event.process : Event → Nat
  | .write p _ | .go p => p

theorem step_other {sb : Superblock} {inum p : Nat} {s t : State} {e : Event} {o : Option Int}
    (other : e.process ≠ p) (taken : step sb inum s e = some (t, o)) : t.pc p = s.pc p := by
  have moved : ∀ (u : State) (pc : Pc), u.pc = s.pc → (u.goto e.process pc).pc p = s.pc p := by
    intro u pc same
    rw [State.goto_pc_of_ne other.symm, same]
  cases e with
  | write q buf =>
    rw [step] at taken
    split at taken
    · cases taken
      exact moved s _ rfl
    · cases taken
  | go q =>
    rw [step, go] at taken
    repeat' split at taken
    all_goals cases taken
    all_goals exact moved _ _ rfl

instance (sb : Superblock) (disk : Disk) (ip : Dinode) (len : Nat) :
    Decidable (Enough sb disk ip len) := inferInstanceAs (Decidable (_ ≤ _))

instance (sb : Superblock) (s : State) : (e : Event) → Decidable (Ready sb s e)
  | .write _ buf => inferInstanceAs (Decidable (buf.length ≤ maxWrite))
  | .go p =>
      match at_ : s.pc p with
      | .locked buf _ =>
          decidable_of_iff (Enough sb s.fs.disk s.ip (s.off.toNat + buf.length))
            (by rw [Ready, at_])
      | .user | .turn .. | .begun .. | .writing .. | .ending .. | .wrote .. | .loaded .. |
        .stored ..
      | .unlocked .. => .isTrue (by rw [Ready, at_]; trivial)

/-- The file of `oneFile` is open. -/
def shared : State where
  fs := ⟨oneFile, [], []⟩
  ip := { Dinode.zero with type := T_FILE }
  lock := none
  off := 0
  pc _ := .user

theorem opened_shared : Opened smallDisk 1 shared := by
  have inode := inodes_oneFile 1
  rw [if_pos rfl] at inode
  refine ⟨wellFormed_oneFile, ?_, inode.symm, rfl, fun _ => rfl, rfl⟩
  rw [Allocated]
  exact inode ▸ by decide

/-- Process 0 calls `write` before process 1, which gets the lock first. -/
def twoWrites : List (Event × Option Int) :=
  [(.write 0 [97], none), (.write 1 [98], none), (.go 0, none)] ++
    List.replicate 10 (.go 1, none) ++ [(.go 1, some 1)] ++
    List.replicate 9 (.go 0, none) ++ [(.go 0, some 1)]

theorem appends_two : ∃ t, (machine smallDisk 1).Run shared twoWrites t ∧
    ∃ order : Order, (order.of 0).map (fun x => x.2.1) = [[97]] ∧
      (order.of 1).map (fun x => x.2.1) = [[98]] ∧
      content (inodes smallDisk t.fs.disk 1) t.fs.disk = order.written.flatten := by
  have done : ((machine smallDisk 1).exec shared (twoWrites.map Prod.fst)).map
      (fun r => (r.1, r.2.pc 0, r.2.pc 1)) = some (twoWrites, .user, .user) := by
    decide +kernel
  obtain ⟨t, run, seen⟩ := Machine.run_of_exec (fun t : State => (t.pc 0, t.pc 1)) done
  have both : ∀ x ∈ twoWrites, x.1.process < 2 := by decide
  have mine : (machine smallDisk 1).Throughout shared twoWrites fun _ e => e.process < 2 :=
    Machine.throughout_of_events fun x member _ => both x member
  have others : ∀ p, 2 ≤ p → t.pc p = .user := by
    refine run.invariant (fun _ t => ∀ p, 2 ≤ p → t.pc p = .user) mine (fun _ _ => rfl) ?_
    intro pre u e o v _ before low taken p high
    rw [step_other (by omega) taken, before p high]
  have idle : ∀ p, t.pc p = .user := by
    simp only [Prod.mk.injEq] at seen
    intro p
    match p with
    | 0 => exact seen.1
    | 1 => exact seen.2
    | p + 2 => exact others (p + 2) (by omega)
  have allowed : (machine smallDisk 1).allows (fun s e => decide (Ready smallDisk s e)) shared
      (twoWrites.map Prod.fst) = true := by
    decide +kernel
  have ready : (machine smallDisk 1).Throughout shared twoWrites (Ready smallDisk) :=
    fun pre u e o inside before =>
      of_decide_eq_true (Machine.throughout_of_allows allowed pre u e o inside before)
  obtain ⟨order, each, bytes, -⟩ := appends opened_shared run ready idle
  have empty : content (inodes smallDisk shared.fs.disk 1) shared.fs.disk = [] := by
    rw [← opened_shared.inode]
    rfl
  rw [empty, List.nil_append] at bytes
  exact ⟨t, run, order, (each 0).1, (each 1).1, bytes⟩

end Xv6.Kernel.SharedOffset
