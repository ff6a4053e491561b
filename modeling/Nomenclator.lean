import Nomenclator.Hierarchy.Cache
import Nomenclator.Naming.Synthesis
import Nomenclator.Proofs.CachedLayers
import Nomenclator.Proofs.ClassFileLayout
import Nomenclator.Proofs.ClassNameAgreement
import Nomenclator.Proofs.ClassNamesApart
import Nomenclator.Proofs.CompleteWalks
import Nomenclator.Proofs.CorrectedSignatures
import Nomenclator.Proofs.CounterLimits
import Nomenclator.Proofs.FieldPrecedence
import Nomenclator.Proofs.FieldResolution
import Nomenclator.Proofs.FixedMethods
import Nomenclator.Proofs.Idempotence
import Nomenclator.Proofs.InnerNames
import Nomenclator.Proofs.InputOrder
import Nomenclator.Proofs.InstructionLayout
import Nomenclator.Proofs.NameFormats
import Nomenclator.Proofs.OverrideConsistency
import Nomenclator.Proofs.RecoveredConstants
import Nomenclator.Proofs.SelfDelimiting
import Nomenclator.Proofs.SettingsRoundTrip
import Nomenclator.Proofs.SignatureKinds
import Nomenclator.Proofs.SignatureRenaming
import Nomenclator.Proofs.UnrenamedSignatures
import Nomenclator.Settings.Folder
import Nomenclator.Proofs.DescriptorText
import Nomenclator.Proofs.TextGroups
import Nomenclator.Proofs.PoolSlots
import Nomenclator.Proofs.NameCounts
import Nomenclator.Proofs.Tallies
import Nomenclator.Proofs.NameParts
import Nomenclator.Proofs.PlatformQueries
