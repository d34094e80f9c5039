import ClassForge.Main
import ClassForge.Proofs.Transcript
import ClassForge.Proofs.StackShapes
import ClassForge.Proofs.Meanings
import ClassForge.Proofs.PrivateAccess
import ClassForge.Proofs.DescriptorForms
import ClassForge.Proofs.Initializers
import ClassForge.Proofs.FieldSearch
import ClassForge.Proofs.ErrorPlaces
import ClassForge.Proofs.Headers
import ClassForge.Proofs.StmtReading
import ClassForge.Proofs.Sessions
import ClassForge.Proofs.UniqueNames
import ClassForge.Proofs.CallingConvention
import ClassForge.Proofs.DeclarationOrder
import ClassForge.Proofs.OperatorStrength
import ClassForge.Proofs.Spellings
import ClassForge.Proofs.Ancestry
import ClassForge.Proofs.StackEffects
import ClassForge.Proofs.SlotCalls
import ClassForge.Proofs.InterfaceCalls
import ClassForge.Proofs.IntegerLiterals
import ClassForge.Proofs.Concatenation
import ClassForge.Proofs.Tiling
import ClassForge.Proofs.RecordConstructors
import ClassForge.Proofs.EnumerationValues
import ClassForge.Proofs.Bodies
import ClassForge.Proofs.DescriptorParts
import ClassForge.Proofs.Patching
import ClassForge.Proofs.Revival
