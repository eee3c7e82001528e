import Make24.Main
import Make24.Proofs.Judgement
import Make24.Proofs.Remainder
import Make24.Proofs.Usage
import Make24.Proofs.Answering
import Make24.Proofs.Rearrangement
import Make24.Proofs.Respacing
import Make24.Proofs.Discretion
import Make24.Proofs.Trace
import Make24.Proofs.Lossless
import Make24.Proofs.Listing
import Make24.Proofs.Stream
import Make24.Proofs.Waiting
import Make24.Proofs.Pairing
import Make24.Proofs.Unpaired
