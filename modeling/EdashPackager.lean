import EdashPackager.Media.Base.Bytes
import EdashPackager.Media.Base.AesBlock
import EdashPackager.Media.Base.AesEncryptor
import EdashPackager.Media.Base.AesCtrEncryptor
import EdashPackager.Media.Base.AesCbcEncryptor
import EdashPackager.Media.Base.AesCbcCalls
import EdashPackager.Media.Base.DecryptConfig
import EdashPackager.Media.Formats.Mp4.SegmentIndex
import EdashPackager.Media.Formats.Mp4.MultiSegmentSegmenter
import EdashPackager.Media.Formats.Mp4.SubsegmentRuns
import EdashPackager.Media.Formats.Mp4.SegmentFiles
