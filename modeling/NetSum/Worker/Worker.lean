import NetSum.Lib.Xorshift
import NetSum.Protocol.FixedPoint
import NetSum.UserspaceAgg.MainLoop

/-!
# The worker

`worker/worker.c`: the pseudo-random generator and `main`, which sends one packet for each round.
What `atoi`, `strtoul` and `atof` make of the arguments (finite numbers) and which of the calls to
the system succeed come from outside. The run is `none` where it converts a `double` that no
`int32_t` holds.
-/

namespace NetSum.Worker

open NetSum.Lib NetSum.Protocol
open UserspaceAgg (Buffer)

/-! ## The generator -/

/-- `xorshift_double`: the number, and what is left in `*state`. -/
def xorshiftDouble (state : BitVec 64) : Double × BitVec 64 :=
  let x := state
  let x := x ^^^ x <<< 13
  let x := x ^^^ x >>> 7
  let x := x ^^^ x <<< 17
  (((x % 2000000).toNat : Double) / 1000000 - 1, x)

/-! ## Arguments -/

/-- The arguments as the library functions read them. The last two need not be given. -/
structure Argv where
  jobId : ℤ
  workerId : ℤ
  numWorkers : ℤ
  numRounds : ℤ
  chunkLen : ℤ
  maxAbsGrad : Option Double := none
  fixedValue : Option Double := none

/-- The variables of `main` that hold them. -/
structure Args where
  jobId : BitVec 32
  workerId : BitVec 16
  numWorkers : BitVec 16
  numRounds : ℤ
  chunkLen : BitVec 16
  maxAbsGrad : Double
  fixedValue : Option Double

/-- Each argument cast to the type of its variable. -/
def Argv.args (argv : Argv) : Args where
  jobId := BitVec.ofInt 32 argv.jobId
  workerId := BitVec.ofInt 16 argv.workerId
  numWorkers := BitVec.ofInt 16 argv.numWorkers
  numRounds := argv.numRounds
  chunkLen := BitVec.ofInt 16 argv.chunkLen
  maxAbsGrad := argv.maxAbsGrad.getD 1
  fixedValue := argv.fixedValue

namespace Args

/-- `rng_state` before the first round. -/
def rngState (a : Args) : BitVec 64 :=
  0x9E3779B97F4A7C15#64 ^^^ a.workerId.setWidth 64 <<< 32 ^^^ 0xA5A5A5A5#64

def hdr (a : Args) (round : ℕ) : GradHdr where
  jobId := a.jobId
  round := BitVec.ofNat 32 round
  chunkId := 0
  workerId := a.workerId
  numWorkers := a.numWorkers
  chunkLen := a.chunkLen
  flags := 0

def packetLen (a : Args) : ℕ := netsumHdrSize + a.chunkLen.toNat * 4

/-- One gradient component. -/
def draw (a : Args) (rng : BitVec 64) : Double × BitVec 64 :=
  match a.fixedValue with
  | some v => (v, rng)
  | none =>
    let (v, rng) := xorshiftDouble rng
    (v * a.maxAbsGrad, rng)

end Args

/-! ## Sending -/

/-- What the loops change. -/
structure State where
  rng : BitVec 64
  packet : Bytes

/-- `values[i] = htonl((uint32_t)netsum_to_fixed(v))`. -/
def valueStep (a : Args) (st : State) (i : ℕ) : Option State := do
  let (v, rng) := a.draw st.rng
  let q ← Binary64.netsumToFixed v
  return ⟨rng, store32 st.packet (netsumHdrSize + 4 * i) (htonl q)⟩

/-- A round up to `sendto`. -/
def fillPacket (a : Args) (round : ℕ) (st : State) : Option State :=
  (List.range a.chunkLen.toNat).foldlM (valueStep a) ⟨st.rng, writeHdr st.packet (a.hdr round)⟩

/-- `n` rounds from `round` on: what is sent, and whether all of it was. -/
def sendRounds (a : Args) (sendOk : ℕ → Bool) : ℕ → ℕ → State → Option (List Bytes × Bool)
  | 0, _, _ => some ([], true)
  | n + 1, round, st => do
    let st ← fillPacket a round st
    if sendOk round then
      let (sent, done) ← sendRounds a sendOk n (round + 1) st
      return (st.packet.take a.packetLen :: sent, done)
    else return ([], false)

/-- Which calls succeed: `socket`, `inet_pton` on `dest_ip`, and `sendto` in each round. -/
structure Calls where
  socketOk : Bool
  inetPtonOk : Bool
  sendOk : ℕ → Bool

/-- The exit status, whether the overflow warning was printed, and what was sent. -/
structure Outcome where
  status : ℕ
  warned : Bool
  sent : List Bytes
  deriving DecidableEq

/-- `main`, with an uninitialised packet buffer. -/
def main (a : Args) (packet : Buffer) (calls : Calls) : Option Outcome :=
  if a.chunkLen.toNat > netsumMaxChunkLen then some ⟨1, false, []⟩
  else
    let warned := !Binary64.netsumSumFitsI32 a.numWorkers.toNat a.maxAbsGrad
    if !calls.socketOk then some ⟨1, warned, []⟩
    else if !calls.inetPtonOk then some ⟨1, warned, []⟩
    else do
      let (sent, done) ←
        sendRounds a calls.sendOk a.numRounds.toNat 0 ⟨a.rngState, packet.bytes⟩
      return ⟨if done then 0 else 1, warned, sent⟩

end NetSum.Worker
