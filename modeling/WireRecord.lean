import WireRecord.Conversion
import WireRecord.Layout.Text
import WireRecord.Proofs.RoundTripTheorems
import WireRecord.View.Lookup
import WireRecord.View.Text
import WireRecord.Proofs.AcceptanceTheorems
import WireRecord.Proofs.ArrangementTheorems
import WireRecord.Proofs.StoreTheorems
import WireRecord.Proofs.SpreadTheorems
import WireRecord.Proofs.FixedCountTheorems
import WireRecord.Proofs.NaturalAlignmentTheorems
import WireRecord.Proofs.CourseTheorems
import WireRecord.Proofs.SeriesTheorems
import WireRecord.Proofs.PositionedArrayTheorems
import WireRecord.Proofs.LegacyPaddingTheorems
import WireRecord.Proofs.DelimitedTheorems
import WireRecord.Proofs.AvailabilityTheorems
import WireRecord.Proofs.NameTheorems
import WireRecord.Proofs.ReopeningTheorems
import WireRecord.Proofs.VersionTheorems
import WireRecord.Proofs.LookupTheorems
import WireRecord.Proofs.TallyTheorems
import WireRecord.Proofs.ObstacleTheorems
import WireRecord.Proofs.ConstantTheorems
import WireRecord.Proofs.WriteBackTheorems
import WireRecord.Proofs.ConstantWritingTheorems
import WireRecord.Proofs.TargetTheorems
import WireRecord.Proofs.NumberCodingTheorems
import WireRecord.Proofs.CursorTheorems
import WireRecord.Proofs.ChunkLoopTheorems
import WireRecord.Proofs.RawAccessTheorems
import WireRecord.Proofs.AddressTheorems
import WireRecord.Proofs.IntegerTheorems
import WireRecord.Proofs.NarrowTheorems
import WireRecord.Proofs.IntegerConversionTheorems
import WireRecord.Proofs.ScalarConversionTheorems
import WireRecord.Proofs.EnumNameTheorems
