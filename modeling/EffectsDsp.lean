import EffectsDsp.Execution.Sample
import EffectsDsp.Fixed.Text
import EffectsDsp.Machine.Snapshot
import EffectsDsp.Settings.Files
import EffectsDsp.Proofs.Arithmetic
import EffectsDsp.Proofs.Effect
import EffectsDsp.Proofs.Session
import EffectsDsp.Proofs.Comparison
import EffectsDsp.Proofs.Lockstep
import EffectsDsp.Proofs.Codec
import EffectsDsp.Proofs.Snapshot
import EffectsDsp.Proofs.Datapath
import EffectsDsp.Proofs.Tape
import EffectsDsp.Proofs.Refusal
import EffectsDsp.Proofs.Mirror
import EffectsDsp.Proofs.Noninterference
import EffectsDsp.Proofs.ClampCount
import EffectsDsp.Proofs.Termination
import EffectsDsp.Proofs.Motion
import EffectsDsp.Proofs.SampleEnd
import EffectsDsp.Proofs.Latch
import EffectsDsp.Proofs.FaultCount
import EffectsDsp.Proofs.Items
import EffectsDsp.Proofs.Truncation
import EffectsDsp.Proofs.Normalisation
import EffectsDsp.Proofs.Structure
import EffectsDsp.Proofs.Export
import EffectsDsp.Proofs.Footprint
import EffectsDsp.Proofs.Alias
import EffectsDsp.Proofs.Programming
import EffectsDsp.Proofs.Chain
import EffectsDsp.Proofs.Skip
import EffectsDsp.Proofs.Slots
import EffectsDsp.Proofs.Configuration
import EffectsDsp.Proofs.Wrapping
import EffectsDsp.Proofs.Precision
