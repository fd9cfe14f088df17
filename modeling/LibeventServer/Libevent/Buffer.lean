import LibeventServer.Lib.Bytes
import LibeventServer.Lib.LinkedList
import LibeventServer.Lib.Program

/-!
# `buffer.c`

The part of libevent's evbuffer that a socket bufferevent uses: a list of chains, each with a buffer of which a window
holds data.  The chains of an evbuffer lie on a heap of its own, as no function modelled here moves a chain from one
evbuffer to another.

`malloc` lists whether the next allocations succeed; after its end they do.  What the kernel does is given to the
functions that read from or write to a socket.  Chains that are mapped, referenced or pinned do not occur in the
buffers of a socket bufferevent, and the evbuffer's callbacks do not touch its chains; both are left out, as are
locks.
-/

namespace LibeventServer

/-! ### `evbuffer-internal.h`, for 64 bits -/

/-- `sizeof(struct evbuffer_chain)` -/
abbrev EVBUFFER_CHAIN_SIZE : Nat := 48

/-- `EV_SSIZE_MAX` -/
abbrev EVBUFFER_CHAIN_MAX : Nat := 9223372036854775807

abbrev EV_SIZE_MAX : Nat := 18446744073709551615

abbrev MIN_BUFFER_SIZE : Nat := 1024

abbrev EVBUFFER_CHAIN_MAX_AUTO_SIZE : Nat := 4096

abbrev MAX_TO_REALIGN_IN_EXPAND : Nat := 2048

abbrev NUM_READ_IOVEC : Nat := 4

abbrev NUM_WRITE_IOVEC : Nat := 128

/-- `EVBUFFER_MAX_READ`: what libevent reads from a socket at once. -/
abbrev EVBUFFER_MAX_READ : Nat := 4096

/-- `struct evbuffer_chain`; `buffer` has `buffer_len` bytes. -/
structure EvbufferChain where
  next : Option Nat
  buffer_len : Nat
  misalign : Nat
  off : Nat
  buffer : Bytes

/-- A pointer to a pointer to a chain: to `buf->first`, or to the `next` of a chain. -/
inductive ChainSlot where
  | first
  | next (chain : Nat)
  deriving DecidableEq

/-- `struct evbuffer` with its chains; `sent` lists the bytes the kernel has taken from it. -/
structure Evbuffer where
  chains : Heap EvbufferChain
  first : Option Nat
  last : Option Nat
  last_with_datap : ChainSlot
  total_len : Nat
  freeze_start : Bool
  freeze_end : Bool
  malloc : List Bool
  sent : List UInt8

/-- What the code must not do; `hang` is a loop that is still running when its fuel is spent. -/
inductive BufferFault where
  | nullPointer
  | useAfterFree
  | doubleFree
  | overflow
  | assertion
  | hang
  deriving DecidableEq

/-- Code of `buffer.c`. -/
abbrev Buf : Type → Type := EStateM BufferFault Evbuffer

namespace EvbufferChain

/-- `CHAIN_SPACE_LEN(ch)` -/
def spaceLen (c : EvbufferChain) : Nat := c.buffer_len - (c.misalign + c.off)

/-- `memcpy` of `len` bytes at offset `i` of the buffer. -/
def load (c : EvbufferChain) (i len : Nat) : Option (List UInt8) :=
  if i + len ≤ c.buffer_len then some (c.buffer.slice i len) else none

end EvbufferChain

instance instLinkedEvbufferChain : Linked EvbufferChain where
  next c := c.next
  link q c := { c with next := q }
  next_link _ _ := rfl
  link_link _ _ _ := rfl

/-! ### Pointers -/

/-- Change the evbuffer. -/
def setBuf (f : Evbuffer → Evbuffer) : Buf Unit := fun b => .ok () (f b)

/-- `EVUTIL_ASSERT` -/
def EVUTIL_ASSERT (p : Prop) [Decidable p] : Buf Unit := if p then pure () else throw .assertion

/-- Read `*chain`. -/
def getChain (chain : Option Nat) : Buf EvbufferChain := fun b =>
  match chain with
  | none => .error .nullPointer b
  | some p =>
    match b.chains.cell p with
    | some c => .ok c b
    | none => .error .useAfterFree b

/-- Write `*chain`. -/
def setChain (chain : Option Nat) (f : EvbufferChain → EvbufferChain) : Buf Unit := fun b =>
  match chain with
  | none => .error .nullPointer b
  | some p =>
    match b.chains.cell p with
    | some _ => .ok () { b with chains := b.chains.update p f }
    | none => .error .useAfterFree b

/-- Copy `data` to offset `i` of the buffer of a chain. -/
def storeChain (chain : Option Nat) (i : Nat) (data : List UInt8) : Buf Unit := do
  let c ← getChain chain
  if i + data.length ≤ c.buffer_len then
    setChain chain fun c => { c with buffer := c.buffer.write i data }
  else
    throw .overflow

/-- Copy `len` bytes from offset `i` of the buffer of a chain. -/
def loadChain (chain : Option Nat) (i len : Nat) : Buf (List UInt8) := do
  let c ← getChain chain
  match c.load i len with
  | some data => return data
  | none => throw .overflow

/-- `*slot` -/
def readSlot : ChainSlot → Buf (Option Nat)
  | .first => fun b => .ok b.first b
  | .next chain => do
    let c ← getChain (some chain)
    return c.next

/-- `*slot = chain` -/
def writeSlot (slot : ChainSlot) (chain : Option Nat) : Buf Unit :=
  match slot with
  | .first => setBuf fun b => { b with first := chain }
  | .next p => setChain (some p) fun c => { c with next := chain }

/-- The fuel of a walk along the chains. -/
def fuel : Buf Nat := fun b => .ok (b.chains.next + 1) b

/-! ### Chains -/

/-- `while (to_alloc < size) to_alloc <<= 1;` -/
def doubleUp (size : Nat) : Nat → Nat → Buf Nat
  | 0, _ => throw .hang
  | n + 1, to_alloc => if to_alloc < size then doubleUp size n (2 * to_alloc) else pure to_alloc

/-- How much `evbuffer_chain_new` allocates for a chain of `size` bytes, the header included. -/
def sizeToAlloc (size : Nat) : Buf Nat :=
  if size < EVBUFFER_CHAIN_MAX / 2 then doubleUp size 64 MIN_BUFFER_SIZE else pure size

/-- `mm_malloc`, for a chain whose fields are set. -/
def mm_malloc (c : EvbufferChain) : Buf (Option Nat) := fun b =>
  match b.malloc with
  | false :: malloc => .ok none { b with malloc := malloc }
  | true :: malloc => .ok (some b.chains.next) { b with chains := b.chains.alloc c, malloc := malloc }
  | [] => .ok (some b.chains.next) { b with chains := b.chains.alloc c }

/-- `evbuffer_chain_new(size)`.  It leaves the buffer unset; it is written before it is read. -/
def evbuffer_chain_new (size : Nat) : Buf (Option Nat) := do
  if EVBUFFER_CHAIN_MAX - EVBUFFER_CHAIN_SIZE < size then
    return none
  let to_alloc ← sizeToAlloc (size + EVBUFFER_CHAIN_SIZE)
  mm_malloc ⟨none, to_alloc - EVBUFFER_CHAIN_SIZE, 0, 0, fun _ => 0⟩

/-- `evbuffer_chain_free(chain)` -/
def evbuffer_chain_free (chain : Nat) : Buf Unit := fun b =>
  match b.chains.cell chain with
  | some _ => .ok () { b with chains := b.chains.free chain }
  | none => .error .doubleFree b

/-- `for (; chain; chain = next) { next = chain->next; evbuffer_chain_free(chain); }` -/
def freeChains : Nat → Option Nat → Buf Unit
  | _, none => pure ()
  | 0, some _ => throw .hang
  | n + 1, some chain => do
    let c ← getChain (some chain)
    evbuffer_chain_free chain
    freeChains n c.next

/-- `evbuffer_free_all_chains(chain)` -/
def evbuffer_free_all_chains (chain : Option Nat) : Buf Unit := do
  freeChains (← fuel) chain

/-- `ZERO_CHAIN(buf)` -/
def ZERO_CHAIN : Buf Unit :=
  setBuf fun b => { b with first := none, last := none, last_with_datap := .first, total_len := 0 }

/-- `for (; chain; chain = chain->next) if (chain->off) return 0; return 1;` -/
def allEmpty : Nat → Option Nat → Buf Bool
  | _, none => pure true
  | 0, some _ => throw .hang
  | n + 1, some chain => do
    let c ← getChain (some chain)
    if c.off ≠ 0 then return false
    allEmpty n c.next

/-- `evbuffer_chains_all_empty(chain)` -/
def evbuffer_chains_all_empty (chain : Option Nat) : Buf Bool := do
  allEmpty (← fuel) chain

/-- `while ((*ch) && (*ch)->off != 0) ch = &(*ch)->next;` -/
def findVictim : Nat → ChainSlot → Buf ChainSlot
  | 0, _ => throw .hang
  | n + 1, ch => do
    match ← readSlot ch with
    | none => return ch
    | some chain =>
      let c ← getChain (some chain)
      if c.off ≠ 0 then findVictim n (.next chain) else return ch

/-- `evbuffer_chain_insert(buf, chain)` -/
def evbuffer_chain_insert (chain : Nat) : Buf Unit := do
  let b ← get
  let c ← getChain (some chain)
  match ← readSlot b.last_with_datap with
  | none =>
    EVUTIL_ASSERT (b.last_with_datap = .first)
    EVUTIL_ASSERT (b.first = none)
    setBuf fun b => { b with first := some chain, last := some chain }
  | some _ =>
    let ch ← findVictim (← fuel) b.last_with_datap
    match ← readSlot ch with
    | none =>
      setChain b.last fun c => { c with next := some chain }
      match b.last with
      | some last => if c.off ≠ 0 then setBuf fun b => { b with last_with_datap := .next last }
      | none => pure ()
    | some victim =>
      EVUTIL_ASSERT ((← evbuffer_chains_all_empty (some victim)) = true)
      evbuffer_free_all_chains (some victim)
      writeSlot ch (some chain)
    setBuf fun b => { b with last := some chain }
  setBuf fun b => { b with total_len := b.total_len + c.off }

/-! ### Taking data out -/

/-- The loop of `evbuffer_copyout` and the copy after it. -/
def copyChains : Nat → Option Nat → Nat → List UInt8 → Buf (List UInt8)
  | 0, _, _, _ => throw .hang
  | n + 1, chain, datlen, data => do
    if datlen = 0 then return data
    let c ← getChain chain
    if c.off ≤ datlen then
      let bytes ← loadChain chain c.misalign c.off
      EVUTIL_ASSERT (c.next.isSome ∨ datlen - c.off = 0)
      copyChains n c.next (datlen - c.off) (data ++ bytes)
    else
      let bytes ← loadChain chain c.misalign datlen
      return data ++ bytes

/-- `evbuffer_copyout(buf, data_out, datlen)`: the result and the bytes copied to `data_out`. -/
def evbuffer_copyout (datlen : Nat) : Buf (Int × List UInt8) := do
  let b ← get
  let datlen := if b.total_len ≤ datlen then b.total_len else datlen
  if datlen = 0 then return (0, [])
  if b.freeze_start then return (-1, [])
  let data ← copyChains (← fuel) b.first datlen []
  return (datlen, data)

/-- The loop of `evbuffer_drain`; the result is the chain it stops at and what remains to be drained from it. -/
def drainChains : Nat → Option Nat → Nat → Buf (Option Nat × Nat)
  | 0, _, _ => throw .hang
  | n + 1, chain, remaining => do
    let c ← getChain chain
    if c.off ≤ remaining then
      let b ← get
      if chain = (← readSlot b.last_with_datap) then
        setBuf fun b => { b with last_with_datap := .first }
      match chain with
      | none => throw .nullPointer
      | some p =>
        setBuf fun b => if b.last_with_datap = .next p then { b with last_with_datap := .first } else b
        evbuffer_chain_free p
        drainChains n c.next (remaining - c.off)
    else
      return (chain, remaining)

/-- `evbuffer_drain(buf, len)` -/
def evbuffer_drain (len : Nat) : Buf Int := do
  let b ← get
  let old_len := b.total_len
  if old_len = 0 then return 0
  if b.freeze_start then return -1
  if old_len ≤ len then
    freeChains (← fuel) b.first
    ZERO_CHAIN
  else
    setBuf fun b => { b with total_len := b.total_len - len }
    let (chain, remaining) ← drainChains (← fuel) b.first len
    setBuf fun b => { b with first := chain }
    if chain.isSome then
      let c ← getChain chain
      EVUTIL_ASSERT (remaining ≤ c.off)
      setChain chain fun c => { c with misalign := c.misalign + remaining, off := c.off - remaining }
  return 0

/-- `evbuffer_remove(buf, data_out, datlen)` -/
def evbuffer_remove (datlen : Nat) : Buf (Int32 × List UInt8) := do
  let (n, data) ← evbuffer_copyout datlen
  if 0 < n then
    if (← evbuffer_drain n.toNat) < 0 then
      return (-1, data)
  return (Int32.ofInt n, data)

/-! ### Putting data in -/

/-- `evbuffer_chain_should_realign(chain, datlen)` -/
def evbuffer_chain_should_realign (c : EvbufferChain) (datlen : Nat) : Bool :=
  datlen ≤ c.buffer_len - c.off && c.off < c.buffer_len / 2 && c.off ≤ MAX_TO_REALIGN_IN_EXPAND

/-- `evbuffer_chain_align(chain)` -/
def evbuffer_chain_align (chain : Option Nat) : Buf Unit := do
  let c ← getChain chain
  let data ← loadChain chain c.misalign c.off
  storeChain chain 0 data
  setChain chain fun c => { c with misalign := 0 }

/-- Copy `data` behind the data of a chain and count it. -/
def appendChain (chain : Option Nat) (data : List UInt8) : Buf Unit := do
  let c ← getChain chain
  storeChain chain (c.misalign + c.off) data
  setChain chain fun c => { c with off := c.off + data.length }
  setBuf fun b => { b with total_len := b.total_len + data.length }

/-- The size of the chain that `evbuffer_add` puts behind one of `buffer_len` bytes. -/
def sizeToAdd (buffer_len datlen : Nat) : Nat :=
  let to_alloc := if buffer_len ≤ EVBUFFER_CHAIN_MAX_AUTO_SIZE / 2 then 2 * buffer_len else buffer_len
  if to_alloc < datlen then datlen else to_alloc

/-- The end of `evbuffer_add`: `data` goes to the new chain `tmp`. -/
def addToNew (tmp : Nat) (data : List UInt8) : Buf Int := do
  storeChain (some tmp) 0 data
  setChain (some tmp) fun c => { c with off := data.length }
  evbuffer_chain_insert tmp
  return 0

/-- `evbuffer_add(buf, data_in, datlen)` from where it has a last chain. -/
def addToLast (chain : Option Nat) (data : List UInt8) : Buf Int := do
  let c ← getChain chain
  EVUTIL_ASSERT (c.misalign ≤ EVBUFFER_CHAIN_MAX)
  let remain := c.buffer_len - c.misalign - c.off
  if data.length ≤ remain then
    appendChain chain data
    return 0
  else if evbuffer_chain_should_realign c data.length then
    evbuffer_chain_align chain
    appendChain chain data
    return 0
  match ← evbuffer_chain_new (sizeToAdd c.buffer_len data.length) with
  | none => return -1
  | some tmp =>
    if remain ≠ 0 then
      appendChain chain (data.take remain)
    addToNew tmp (data.drop remain)

/-- `evbuffer_add(buf, data_in, datlen)` -/
def evbuffer_add (data : List UInt8) : Buf Int := do
  let b ← get
  if b.freeze_end then return -1
  if EV_SIZE_MAX - b.total_len < data.length then return -1
  match b.last with
  | some chain => addToLast (some chain) data
  | none =>
    match ← evbuffer_chain_new data.length with
    | none => return -1
    | some chain =>
      evbuffer_chain_insert chain
      addToLast (some chain) data

/-! ### Reading from a socket -/

/-- How the first loop of `_evbuffer_expand_fast` ends. -/
inductive Expand where
  | enough
  | short (chain : Option Nat) (used avail : Nat)

/-- What the first loop of `_evbuffer_expand_fast` does with a chain: count it and its space. -/
def countSpace (chain used avail : Nat) : Buf (Nat × Nat) := do
  let c ← getChain (some chain)
  if c.off ≠ 0 then
    let b ← get
    EVUTIL_ASSERT (some chain = (← readSlot b.last_with_datap))
    return if c.spaceLen ≠ 0 then (used + 1, avail + c.spaceLen) else (used, avail)
  else
    setChain (some chain) fun c => { c with misalign := 0 }
    return (used + 1, avail + c.buffer_len)

/-- The first loop of `_evbuffer_expand_fast`. -/
def expandLoop (datlen n : Nat) : Nat → Option Nat → Nat → Nat → Buf Expand
  | _, none, used, avail => pure (.short none used avail)
  | 0, some _, _, _ => throw .hang
  | k + 1, some chain, used, avail => do
    let (used, avail) ← countSpace chain used avail
    if datlen ≤ avail then return .enough
    if used = n then return .short (some chain) used avail
    let c ← getChain (some chain)
    expandLoop datlen n k c.next used avail

/-- The branch of `_evbuffer_expand_fast` that puts one more chain to the end. -/
def appendEmptyChain (size : Nat) : Buf Int := do
  match ← evbuffer_chain_new size with
  | none => return -1
  | some tmp =>
    let b ← get
    setChain b.last fun c => { c with next := some tmp }
    setBuf fun b => { b with last := some tmp }
    return 0

/-- `for (; chain; chain = next) { next = chain->next; EVUTIL_ASSERT(chain->off == 0); evbuffer_chain_free(chain); }`
-/
def freeEmptyChains : Nat → Option Nat → Buf Unit
  | _, none => pure ()
  | 0, some _ => throw .hang
  | n + 1, some chain => do
    let c ← getChain (some chain)
    EVUTIL_ASSERT (c.off = 0)
    evbuffer_chain_free chain
    freeEmptyChains n c.next

/-- The branch of `_evbuffer_expand_fast` that frees all empty chains and makes one that is long enough. -/
def replaceEmptyChains (datlen : Nat) : Buf Int := do
  let b ← get
  let cur ← readSlot b.last_with_datap
  let c ← getChain cur
  let rmv_all := c.off = 0
  if rmv_all then
    EVUTIL_ASSERT (cur = b.first)
  let avail := if rmv_all then 0 else c.spaceLen
  freeEmptyChains (← fuel) (if rmv_all then cur else c.next)
  EVUTIL_ASSERT (avail ≤ datlen)
  match ← evbuffer_chain_new (datlen - avail) with
  | none =>
    if rmv_all then
      ZERO_CHAIN
    else
      setBuf fun b => { b with last := cur }
      setChain cur fun c => { c with next := none }
    return -1
  | some tmp =>
    if rmv_all then
      setBuf fun b => { b with first := some tmp, last := some tmp, last_with_datap := .first }
    else
      setChain cur fun c => { c with next := some tmp }
      setBuf fun b => { b with last := some tmp }
    return 0

/-- `_evbuffer_expand_fast(buf, datlen, n)` -/
def evbuffer_expand_fast (datlen n : Nat) : Buf Int := do
  let b ← get
  EVUTIL_ASSERT (2 ≤ n)
  match b.last with
  | none =>
    match ← evbuffer_chain_new datlen with
    | none => return -1
    | some chain =>
      evbuffer_chain_insert chain
      return 0
  | some _ =>
    match ← expandLoop datlen n (← fuel) (← readSlot b.last_with_datap) 0 0 with
    | .enough => return 0
    | .short chain used avail =>
      if used < n then
        EVUTIL_ASSERT (chain = none)
        appendEmptyChain (datlen - avail)
      else
        replaceEmptyChains datlen

/-- `struct iovec`: `iov_base` is an offset of the buffer of a chain. -/
structure Iovec where
  chain : Option Nat
  iov_base : Nat
  iov_len : Nat

/-- The loop of `_evbuffer_read_setup_vecs`, with `exact`. -/
def setupVecs (howmuch : Nat) : Nat → Option Nat → Nat → Buf (List Iovec)
  | 0, _, _ => pure []
  | i + 1, chain, so_far => do
    if so_far < howmuch then
      let c ← getChain chain
      let avail := if howmuch - so_far < c.spaceLen then howmuch - so_far else c.spaceLen
      let vecs ← setupVecs howmuch i c.next (so_far + avail)
      return ⟨chain, c.misalign + c.off, avail⟩ :: vecs
    else
      return []

/-- `_evbuffer_read_setup_vecs(buf, howmuch, vecs, n_vecs_avail, chainp, 1)`: the vectors and `chainp`. -/
def evbuffer_read_setup_vecs (howmuch n_vecs_avail : Nat) : Buf (List Iovec × ChainSlot) := do
  let b ← get
  let firstchain ← readSlot b.last_with_datap
  let c ← getChain firstchain
  let firstchainp := match firstchain with
    | some p => if c.spaceLen = 0 then .next p else b.last_with_datap
    | none => b.last_with_datap
  let vecs ← setupVecs howmuch n_vecs_avail (← readSlot firstchainp) 0
  return (vecs, firstchainp)

/-- `readv(fd, vecs, nvecs)` on a socket where `data` waits: fill the vectors one after the other. -/
def readv : List Iovec → List UInt8 → Buf Nat
  | [], _ => pure 0
  | v :: vecs, data => do
    let bytes := data.take v.iov_len
    storeChain v.chain v.iov_base bytes
    let n ← readv vecs (data.drop v.iov_len)
    return bytes.length + n

/-- The loop of `evbuffer_read` after `readv`. -/
def commitVecs : Nat → ChainSlot → Nat → Buf Unit
  | 0, _, _ => pure ()
  | i + 1, chainp, remaining => do
    let chain ← readSlot chainp
    let c ← getChain chain
    let space := if EVBUFFER_CHAIN_MAX < c.spaceLen then EVBUFFER_CHAIN_MAX else c.spaceLen
    if space < remaining then
      setChain chain fun c => { c with off := c.off + space }
      match chain with
      | none => throw .nullPointer
      | some p => commitVecs i (.next p) (remaining - space)
    else
      setChain chain fun c => { c with off := c.off + remaining }
      setBuf fun b => { b with last_with_datap := chainp }

/-- What the kernel says about a socket to read from: the number of bytes `FIONREAD` gives, and what waits there;
`readv` fails if nothing is given, and the peer has closed if no byte waits. -/
structure Readable where
  fionread : Int
  waiting : Option (List UInt8)

/-- How much `evbuffer_read` reads at most: what `FIONREAD` gives, but no more than `EVBUFFER_MAX_READ`. -/
def howMuchToRead (fionread howmuch : Int) : Int :=
  let n := if fionread ≤ 0 ∨ (EVBUFFER_MAX_READ : Int) < fionread then (EVBUFFER_MAX_READ : Int) else fionread
  if howmuch < 0 ∨ n < howmuch then n else howmuch

/-- What `evbuffer_read` does when there is space for `howmuch` bytes. -/
def readIntoSpace (fd : Readable) (howmuch : Nat) : Buf Int := do
  let (vecs, chainp) ← evbuffer_read_setup_vecs howmuch NUM_READ_IOVEC
  match fd.waiting with
  | none => return -1
  | some data =>
    let n ← readv vecs data
    if n = 0 then return 0
    commitVecs vecs.length chainp n
    setBuf fun b => { b with total_len := b.total_len + n }
    return n

/-- `evbuffer_read(buf, fd, howmuch)` -/
def evbuffer_read (fd : Readable) (howmuch : Int) : Buf Int := do
  let b ← get
  if b.freeze_end then return -1
  let howmuch := howMuchToRead fd.fionread howmuch
  if (← evbuffer_expand_fast howmuch.toNat NUM_READ_IOVEC) = -1 then
    return -1
  readIntoSpace fd howmuch.toNat

/-! ### Writing to a socket -/

/-- The loop of `evbuffer_write_iovec`. -/
def writeVecs : Nat → Option Nat → Nat → Buf (List Iovec)
  | _, none, _ => pure []
  | 0, some _, _ => pure []
  | i + 1, some chain, howmuch => do
    if howmuch = 0 then return []
    let c ← getChain (some chain)
    if c.off ≤ howmuch then
      let iov ← writeVecs i c.next (howmuch - c.off)
      return ⟨some chain, c.misalign, c.off⟩ :: iov
    else
      return [⟨some chain, c.misalign, howmuch⟩]

/-- What the vectors hold. -/
def gather : List Iovec → Buf (List UInt8)
  | [] => pure []
  | v :: iov => do
    let bytes ← loadChain v.chain v.iov_base v.iov_len
    let rest ← gather iov
    return bytes ++ rest

/-- `writev(fd, iov, i)` on a socket that takes up to `room` bytes; nothing is given if it fails. -/
def writev (room : Option Nat) (iov : List Iovec) : Buf Int := do
  let bytes ← gather iov
  match room with
  | none => return -1
  | some room =>
    setBuf fun b => { b with sent := b.sent ++ bytes.take room }
    return (bytes.take room).length

/-- `evbuffer_write_iovec(buffer, fd, howmuch)` -/
def evbuffer_write_iovec (room : Option Nat) (howmuch : Nat) : Buf Int := do
  let b ← get
  let iov ← writeVecs NUM_WRITE_IOVEC b.first howmuch
  if iov.isEmpty then return 0
  writev room iov

/-- `evbuffer_write_atmost(buffer, fd, howmuch)` -/
def evbuffer_write_atmost (room : Option Nat) (howmuch : Int) : Buf Int := do
  let b ← get
  if b.freeze_start then return -1
  let howmuch := if howmuch < 0 ∨ (b.total_len : Int) < howmuch then (b.total_len : Int) else howmuch
  let n ← if 0 < howmuch then evbuffer_write_iovec room howmuch.toNat else pure (-1)
  if 0 < n then
    let _ ← evbuffer_drain n.toNat
  return n

/-! ### Making and freeing -/

/-- `evbuffer_new()`, when its own allocation succeeds. -/
def evbuffer_new (malloc : List Bool) : Evbuffer where
  chains := .empty
  first := none
  last := none
  last_with_datap := .first
  total_len := 0
  freeze_start := false
  freeze_end := false
  malloc := malloc
  sent := []

/-- The chains `evbuffer_free(buf)` frees; the evbuffer is then freed itself. -/
def evbuffer_free : Buf Unit := do
  let b ← get
  freeChains (← fuel) b.first

/-- `evbuffer_freeze(buf, start)` -/
def evbuffer_freeze (start : Bool) : Buf Unit :=
  setBuf fun b => if start then { b with freeze_start := true } else { b with freeze_end := true }

/-- `evbuffer_unfreeze(buf, start)` -/
def evbuffer_unfreeze (start : Bool) : Buf Unit :=
  setBuf fun b => if start then { b with freeze_start := false } else { b with freeze_end := false }

end LibeventServer
