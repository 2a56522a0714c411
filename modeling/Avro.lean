import Avro.Main
import Avro.Proofs.BlockLayouts
import Avro.Proofs.CanonicalForms
import Avro.Proofs.CutValues
import Avro.Proofs.Decimals
import Avro.Proofs.DocumentedReading
import Avro.Proofs.Fingerprints
import Avro.Proofs.FirstReference
import Avro.Proofs.Instants
import Avro.Proofs.JsonLines
import Avro.Proofs.Scoping
import Avro.Proofs.Termination
import Avro.Proofs.Truncation
import Avro.Proofs.ValidationModes
import Avro.Proofs.VarintRange
import Avro.Schema.Fingerprint
import Avro.Schema.Load
import Avro.Schema.Session
import Avro.Workload
