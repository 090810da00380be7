import Elfr.Runtime.StringTermination
import Elfr.Library.LinearProbing
import Elfr.Container.Lookup
import Elfr.Container.RoundTrip
import Elfr.Container.Checksum
import Elfr.Container.Identifiers
import Elfr.Compiler.NullSafety
import Elfr.Tools.ObjectRoundTrip
import Elfr.Container.ContainerLayout
import Elfr.Runtime.ForwardCompatibility
import Elfr.Runtime.MetadataAgreement
import Elfr.Runtime.LastError
import Elfr.Runtime.WellFormed
import Elfr.Compiler.NumeralFields
import Elfr.Container.ManifestText
import Elfr.Container.BuilderLimits
import Elfr.Container.StringInterning
import Elfr.Container.RelocatedBuilds
import Elfr.Common.CrcSpecification
import Elfr.Compiler.ObjectOutput
import Elfr.Compiler.LanguageTags
import Elfr.Common.ByteBuf
import Elfr.Compiler.BufferCalls
import Elfr.System.DumpSafety
import Elfr.System.StoreRefinement
import Elfr.Runtime.Threads
import Elfr.Container.BuildIdentity
import Elfr.Container.IdStability
import Elfr.System.LinkedContainers
import Elfr.System.LinkedProgram
import Elfr.Container.ManifestContents
