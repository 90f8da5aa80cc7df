import RegisterMap.AddressSpace.Listing
import RegisterMap.Enumeration
import RegisterMap.Marker
import RegisterMap.Notice
import RegisterMap.SelfTest
import RegisterMap.Design.Report
import RegisterMap.Main
import RegisterMap.Proofs.Source.Location
import RegisterMap.Proofs.AddressSpace.Layout
import RegisterMap.Proofs.Dependency.Ending
import RegisterMap.Proofs.Design.Ambiguity
import RegisterMap.Proofs.AddressSpace.StagedCalls
import RegisterMap.Proofs.AddressSpace.Reservation
import RegisterMap.Proofs.AddressSpace.Shrinking
import RegisterMap.Proofs.Unfolding
import RegisterMap.Proofs.Design.Sharing
import RegisterMap.Proofs.Design.UnrelatedNets
import RegisterMap.Proofs.Decoder.OutputFiles
import RegisterMap.Proofs.Outline
import RegisterMap.Proofs.Export.ShortNames
import RegisterMap.Proofs.Source.Declaration
import RegisterMap.Proofs.Block
import RegisterMap.Proofs.Decoder.CopySlices
import RegisterMap.Proofs.AddressSpace.InstancePaths
import RegisterMap.Proofs.Code
