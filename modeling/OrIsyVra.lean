import OrIsyVra.Library.InPlaceLoop
import OrIsyVra.Library.DurableFile
import OrIsyVra.Library.MachineWord
import OrIsyVra.Library.BlockArray
import OrIsyVra.Library.Blocks
import OrIsyVra.Library.TextLines
import OrIsyVra.Core.Permutation
import OrIsyVra.Core.Prf
import OrIsyVra.Volume.CrashSafety
import OrIsyVra.Volume.Process
import OrIsyVra.Volume.FailedUpdates
import OrIsyVra.Volume.Journal
import OrIsyVra.Volume.Nonces
import OrIsyVra.Volume.Tampering
import OrIsyVra.Volume.Truncation
import OrIsyVra.Mount.Lifecycle
import OrIsyVra.Mount.Sectors
import OrIsyVra.Mount.BlockDevice
import OrIsyVra.Mount.Partition
import OrIsyVra.Mount.Entries
import OrIsyVra.Mount.Credentials
import OrIsyVra.Mount.Pairing
import OrIsyVra.Mount.Temporary
import OrIsyVra.Volume.Selection
import OrIsyVra.Volume.Pinning
import OrIsyVra.Volume.Codecs
import OrIsyVra.Volume.Generations
import OrIsyVra.Files.Keyfile
import OrIsyVra.Files.Capsules
import OrIsyVra.Files.Keycard
import OrIsyVra.Files.PinCard
import OrIsyVra.Files.CardChunks
import OrIsyVra.Files.Replacement
import OrIsyVra.Container.Format
import OrIsyVra.Container.Sealing
import OrIsyVra.Container.Records
import OrIsyVra.Container.Programs
import OrIsyVra.Container.Decryption
import OrIsyVra.Container.Encryption
import OrIsyVra.Files.Batches
import OrIsyVra.Files.PinStore
import OrIsyVra.Files.PinCards
import OrIsyVra.Files.ChunkWalkers
import OrIsyVra.Mount.MountedState
import OrIsyVra.Mount.Hosts
import OrIsyVra.Container.Writers
import OrIsyVra.Files.PinFailures
import OrIsyVra.Container.Integrity
import OrIsyVra.Files.CommandLine
import OrIsyVra.Mount.VolumeApp
import OrIsyVra.Mount.KeyCustody
import OrIsyVra.Mount.EntriesPanel
import OrIsyVra.Library.ScriptedReads
