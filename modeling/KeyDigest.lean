import KeyDigest.Session
import KeyDigest.Once.Atomic
import KeyDigest.Capabilities.Probe
import KeyDigest.Proofs.Crc.Remainder
import KeyDigest.Proofs.Banded.Medium
import KeyDigest.Proofs.Banded.Chunks
import KeyDigest.Proofs.Banded.Buckets
import KeyDigest.Proofs.Banded.Short
import KeyDigest.Proofs.Banded.Tail
import KeyDigest.Proofs.Hasher.Inside
import KeyDigest.Proofs.Once.FilledOnce
import KeyDigest.Proofs.Once.Panics
import KeyDigest.Proofs.Session.Frozen
import KeyDigest.Proofs.Sampling.Draws
import KeyDigest.Proofs.Lookup3.Balance
import KeyDigest.Proofs.Hasher.Dependence
import KeyDigest.Proofs.Banded.Folds
import KeyDigest.Proofs.Settings.Resolution
import KeyDigest.Proofs.Capabilities.Sets
import KeyDigest.Proofs.Hasher.Identity
import KeyDigest.Proofs.Capabilities.Override
import KeyDigest.Proofs.Once.Accounting
import KeyDigest.Proofs.Report.Refusal
